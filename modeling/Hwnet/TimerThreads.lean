import Hwnet.Machine
import Hwnet.TimerSchedule

set_option autoImplicit false

/-!
# A timer manager among its threads

Any number of threads run `Schedule` and `cancel`. A thread gives way before every atomic operation
on a status, at every boundary of the manager's mutex and before `cancel` reads `tid` or `mMgr`
without it. A callback may itself call `cancel`.
-/
namespace Hwnet.TimerMgr

open Timer

/-- A thread inside `Schedule`; `thrown` is the call of an empty callback. -/
inductive SchedulePc where
  | idle
  | lock (now : UInt64)
  | loop (now : UInt64)
  | claim (now : UInt64) (tmp : Ptr)
  | pop (now : UInt64) (tmp : Ptr) (ok : Bool)
  | call (now : UInt64) (tmp : Ptr)
  | running (now : UInt64) (tmp : Ptr)
  | relock (now : UInt64) (tmp : Ptr) (ok : Bool)
  | settle (now : UInt64) (tmp : Ptr) (ok : Bool)
  | insert (now : UInt64) (tmp : Ptr)
  | thrown (tmp : Ptr)
  deriving DecidableEq, Repr

/-- A thread inside `cancel`; `first` tells which of the two exchanges has succeeded, `crashed` is a
member call through a null manager. -/
inductive CancelPc where
  | idle
  | cas1 (t : Ptr)
  | cas2 (t : Ptr)
  | load (t : Ptr) (first : Bool)
  | readTid (t : Ptr)
  | readMgr (t : Ptr)
  | remove (t : Ptr) (mMgr : MgrPtr)
  | crashed (t : Ptr)
  deriving DecidableEq, Repr

inductive CancelResult where
  | cancelOk
  | doingCallbackInCurrentThread
  | doingCallbackInOtherThread
  | invaildTimer
  deriving DecidableEq, Repr

/-- `cancel` is the call a callback makes, or one made outside `Schedule`. -/
structure Thread where
  schedule : SchedulePc
  cancel : CancelPc
  deriving DecidableEq, Repr

inductive Event where
  | claimed (i : ThreadId) (t : Ptr)
  | returned (i : ThreadId) (t : Ptr) (result : CancelResult)
  deriving DecidableEq, Repr

/-- `handles` are the timers that have been added and so may be cancelled. -/
structure Sys where
  mgr : TimerMgr
  mtx : Option ThreadId
  handles : List Ptr
  log : List Event
  threads : List Thread

def Sys.init (self : MgrPtr) (policy : Policy) (n : ℕ) : Sys where
  mgr := .new self policy fun _ => .new 0 0 false 0
  mtx := none
  handles := []
  log := []
  threads := .replicate n ⟨.idle, .idle⟩

def status (m : TimerMgr) (t : Ptr) : UInt32 := (m.timers t).mStatus

def mMgr (m : TimerMgr) (t : Ptr) : Option MgrPtr := (m.timers t).mMgr

def Sys.note (s : Sys) (e : Event) : Sys := { s with log := s.log ++ [e] }

/-! ## Schedule -/

def Sys.enter (s : Sys) (i : ThreadId) (now : UInt64) : Option (Sys × SchedulePc) :=
  if 0 < s.mgr.elementsSize then do
    let tmp ← s.mgr.top
    if now < (s.mgr.timers tmp).mExpiredTime then return ({ s with mtx := none }, .idle)
    return ({ s with mgr := s.mgr.setTid tmp (some i) }, .claim now tmp)
  else some ({ s with mtx := none }, .idle)

def Sys.claim (s : Sys) (i : ThreadId) (now : UInt64) (tmp : Ptr) : Sys × SchedulePc :=
  let (mgr, ok) := s.mgr.casStatus tmp 0 incallback
  let s := { s with mgr }
  (if ok then s.note (.claimed i tmp) else s, .pop now tmp ok)

def Sys.popTop (s : Sys) (now : UInt64) (tmp : Ptr) (ok : Bool) : Option (Sys × SchedulePc) :=
  s.mgr.pop.map fun mgr =>
    ({ s with mgr, mtx := none }, if ok then .call now tmp else .relock now tmp ok)

def Sys.drop (s : Sys) (now : UInt64) (tmp : Ptr) : Sys × SchedulePc :=
  ({ s with mgr := s.mgr.release tmp }, .loop now)

def Sys.settle (s : Sys) (now : UInt64) (tmp : Ptr) (ok : Bool) : Sys × SchedulePc :=
  if ok ∧ (s.mgr.timers tmp).mOnce = false then
    let (mgr, again) := s.mgr.casStatus tmp incallback 0
    if again then ({ s with mgr }, .insert now tmp) else s.drop now tmp
  else s.drop now tmp

def Sys.lock (s : Sys) (i : ThreadId) : Option Sys :=
  if s.mtx = none then some { s with mtx := some i } else none

def scheduleStep (s : Sys) (i : ThreadId) : SchedulePc → Option (Sys × SchedulePc)
  | .idle => none
  | .lock now => (s.lock i).map (·, .loop now)
  | .loop now => s.enter i now
  | .claim now tmp => some (s.claim i now tmp)
  | .pop now tmp ok => s.popTop now tmp ok
  | .call now tmp =>
    some (s, if (s.mgr.timers tmp).mCallback.isSome then .running now tmp else .thrown tmp)
  | .running now tmp => some (s, .relock now tmp true)
  | .relock now tmp ok => (s.lock i).map (·, .settle now tmp ok)
  | .settle now tmp ok => some (s.settle now tmp ok)
  | .insert now tmp => (s.mgr.rearm now tmp).map fun mgr => ({ s with mgr }, .loop now)
  | .thrown _ => none

/-! ## cancel -/

def Sys.finish (s : Sys) (i : ThreadId) (t : Ptr) (result : CancelResult) : Sys × CancelPc :=
  (s.note (.returned i t result), .idle)

def cancelStep (s : Sys) (i : ThreadId) : CancelPc → Option (Sys × CancelPc)
  | .idle => none
  | .cas1 t =>
    let (mgr, ok) := s.mgr.casStatus t 0 canceled
    some ({ s with mgr }, if ok then .load t true else .cas2 t)
  | .cas2 t =>
    let (mgr, ok) := s.mgr.casStatus t incallback (incallback ||| canceled)
    let s := { s with mgr }
    some (if ok then (s, .load t false) else s.finish i t .invaildTimer)
  | .load t _ => some (s, if s.mgr.status t &&& incallback ≠ 0 then .readTid t else .readMgr t)
  | .readTid t =>
    some (s.finish i t (if (s.mgr.timers t).tid = some i then .doingCallbackInCurrentThread
      else .doingCallbackInOtherThread))
  | .readMgr t =>
    match s.mgr.mMgr t with
    | some mMgr => some (s, .remove t mMgr)
    | none => some (s, .crashed t)
  | .remove t mMgr =>
    -- the mutex is that of the manager read; no other manager is part of the system
    if s.mtx = none ∧ mMgr = s.mgr.self then
      (s.mgr.remove t).map fun (mgr, _) => { s with mgr }.finish i t .cancelOk
    else none
  | .crashed _ => none

/-! ## The system -/

inductive Label where
  | addTimer (t : Ptr) (now timeout : UInt64) (once : Bool) (cb : Callback)
  | schedule (i : ThreadId) (now : UInt64)
  | cancel (i : ThreadId) (t : Ptr)
  | advance (i : ThreadId)
  deriving DecidableEq, Repr

/-- A new timer at an address not used before, and `insertLock`. -/
def Sys.addTimer (s : Sys) (t : Ptr) (now timeout : UInt64) (once : Bool) (cb : Callback) :
    Option Sys :=
  if s.mtx = none ∧ t ∉ s.handles then
    ((s.mgr.setTimer t (.new (now + timeout) timeout once cb)).insert t).map fun (mgr, _) =>
      { s with mgr, handles := t :: s.handles }
  else none

/-- A thread may call `cancel` outside `Schedule` or from the callback it runs. -/
def SchedulePc.mayCancel : SchedulePc → Bool
  | .idle | .running _ _ => true
  | _ => false

def threadStep (s : Sys) (i : ThreadId) (th : Thread) : Option (Sys × Thread) :=
  if th.cancel = .idle then
    (scheduleStep s i th.schedule).map fun (s, pc) => (s, { th with schedule := pc })
  else (cancelStep s i th.cancel).map fun (s, pc) => (s, { th with cancel := pc })

def Sys.resume (i : ThreadId) (r : Sys × Thread) : Sys :=
  { r.1 with threads := r.1.threads.set i r.2 }

def step (s : Sys) : Label → Option Sys
  | .addTimer t now timeout once cb => s.addTimer t now timeout once cb
  | .schedule i now =>
    if s.threads[i]? = some ⟨.idle, .idle⟩ then some (Sys.resume i (s, ⟨.lock now, .idle⟩))
    else none
  | .cancel i t => do
    let th ← s.threads[i]?
    if t ∈ s.handles ∧ th.schedule.mayCancel ∧ th.cancel = .idle then
      return Sys.resume i (s, { th with cancel := .cas1 t })
    else none
  | .advance i => do
    let th ← s.threads[i]?
    let r ← threadStep s i th
    return Sys.resume i r

abbrev Reachable (self : MgrPtr) (policy : Policy) (n : ℕ) : Sys → Prop :=
  Machine.Reaches step (Sys.init self policy n)

end Hwnet.TimerMgr
