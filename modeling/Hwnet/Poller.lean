import Mathlib.Algebra.GroupWithZero.Nat
import Mathlib.Data.Int.Notation
import Mathlib.Logic.Function.Basic
import Hwnet.Machine

set_option autoImplicit false

/-!
# The poller

`Registry` is what `Add` and `Remove` act on, as functions of the whole call. Below it the same
calls are cut at everything another thread can see, and run beside the thread in `Run`, which waits
for epoll without the mutex. The registry is keyed by descriptor numbers; `fds` gives the number of
each channel, and two channels have one number when it was closed and used again.
-/
namespace Hwnet.Poller

abbrev Channel := ℕ
abbrev Fd := ℤ

/-- `interest` is epoll's own table: the raw pointer registered under a number. -/
structure Registry where
  channels : Fd → Option Channel
  interest : Fd → Option Channel
  waitRemove : List Channel
  clearWaitRemove : BitVec 32

namespace Registry

def empty : Registry := ⟨fun _ => none, fun _ => none, [], 0⟩

/-- `Epoll::Add`; EPOLL_CTL_ADD refuses a number it has, and may refuse any other. -/
def ctlAdd (r : Registry) (c : Channel) (fd : Fd) (ok : Bool) : Registry × ℤ :=
  if ok && (r.interest fd).isNone then
    ({ r with interest := Function.update r.interest fd (some c) }, 0)
  else (r, -1)

def ctlDel (r : Registry) (fd : Fd) : Registry :=
  { r with interest := Function.update r.interest fd none }

def insert (r : Registry) (c : Channel) (fd : Fd) : Registry :=
  { r with channels := Function.update r.channels fd (some c) }

def erase (r : Registry) (fd : Fd) : Registry :=
  { r with channels := Function.update r.channels fd none }

def push (r : Registry) (c : Channel) : Registry := { r with waitRemove := r.waitRemove ++ [c] }

def count (r : Registry) : Registry := { r with clearWaitRemove := r.clearWaitRemove + 1 }

def add (r : Registry) (c : Channel) (fd : Fd) (ok : Bool) : Registry × ℤ :=
  if (r.channels fd).isSome then (r, -1)
  else
    let (r, ret) := r.ctlAdd c fd ok
    if ret = 0 then (r.insert c fd, ret) else (r, ret)

def remove (r : Registry) (c : Channel) (fd : Fd) : Registry × Bool :=
  if (r.channels fd).isNone then (r, false)
  else
    let r := (((r.push c).erase fd).ctlDel fd).count
    (r, r.clearWaitRemove = 1)

def close (r : Registry) (fd : Fd) : Registry := r.ctlDel fd

end Registry

/-! ## The threads -/

def notifyChannel : Channel := 0

inductive Call where
  | add (c : Channel)
  | remove (c : Channel)
  | stop
  deriving DecidableEq, Repr

/-- Where a call stands. What only the mutex guards changes with the step before or after it. -/
inductive CallPc where
  | add (c : Channel)
  | addCtl (c : Channel)
  | addInsert (c : Channel)
  | remove (c : Channel)
  | removePush (c : Channel)
  | removeErase (c : Channel)
  | removeCtl (c : Channel)
  | removeCount (c : Channel)
  | removeNotify (c : Channel)
  | stop
  | stopNotify
  | done
  deriving DecidableEq, Repr

def Call.entry : Call → CallPc
  | .add c => .add c
  | .remove c => .remove c
  | .stop => .stop

/-- Where the thread in `Run` stands; `nfds` is what epoll_wait returned, `batch` the events not yet
handled, `ret` the result of `RunOnce`. -/
inductive RunPc where
  | idle
  | test
  | wait
  | dispatch (nfds : ℕ) (batch : List Channel)
  | active (nfds : ℕ) (c : Channel) (batch : List Channel)
  | drain (nfds : ℕ) (batch : List Channel)
  | load (ret : ℤ)
  | lock (ret : ℤ)
  | store (ret : ℤ)
  | clear (ret : ℤ)
  | check (ret : ℤ)
  deriving DecidableEq, Repr

inductive Holder where
  | run
  | call (i : ℕ)
  deriving DecidableEq, Repr

/-- `pipe` counts the bytes in the notify pipe. A call made from inside `OnActive` is one of `calls`
that moves while the Run thread is in `active`. -/
structure Sys where
  reg : Registry
  mtx : Option Holder
  closed : Bool
  pipe : ℕ
  maxevents : ℕ
  run : RunPc
  calls : List CallPc

/-- A poller after `Init`; `ok` is whether its own Add succeeded, which `init` does not check. -/
def Sys.init (fds : Channel → Fd) (ok : Bool) : Sys where
  reg := (Registry.empty.add notifyChannel (fds notifyChannel) ok).1
  mtx := none
  closed := false
  pipe := 0
  maxevents := 64
  run := .idle
  calls := []

/-- `ok` is the environment's answer where a step asks for one: whether epoll takes a descriptor,
the pipe a write, realloc a size. -/
inductive Label where
  | call (c : Call)
  | advance (i : ℕ) (ok : Bool)
  | start
  | poll (events : List Fd)
  | pollFailed
  | runner (ok : Bool)
  deriving DecidableEq, Repr

/-- `notifyChannel::notify`; a nonblocking write is refused only by a full pipe. -/
def Sys.notify (s : Sys) (ok : Bool) : Option Sys :=
  if ok then some { s with pipe := s.pipe + 4 } else if 0 < s.pipe then some s else none

def callStep (fds : Channel → Fd) (s : Sys) (i : ℕ) (ok : Bool) : CallPc → Option (Sys × CallPc)
  | .add c =>
    if s.mtx = none then
      if (s.reg.channels (fds c)).isSome then some (s, .done)
      else some ({ s with mtx := some (.call i) }, .addCtl c)
    else none
  | .addCtl c =>
    let (reg, ret) := s.reg.ctlAdd c (fds c) ok
    if ret = 0 then some ({ s with reg }, .addInsert c)
    else some ({ s with reg, mtx := none }, .done)
  | .addInsert c => some ({ s with reg := s.reg.insert c (fds c), mtx := none }, .done)
  | .remove c =>
    if s.mtx = none then
      if (s.reg.channels (fds c)).isNone then some (s, .done)
      else some ({ s with mtx := some (.call i) }, .removePush c)
    else none
  | .removePush c => some ({ s with reg := s.reg.push c }, .removeErase c)
  | .removeErase c => some ({ s with reg := s.reg.erase (fds c) }, .removeCtl c)
  | .removeCtl c => some ({ s with reg := s.reg.ctlDel (fds c) }, .removeCount c)
  | .removeCount c =>
    let reg := s.reg.count
    some ({ s with reg, mtx := none },
      if reg.clearWaitRemove = 1 then .removeNotify c else .done)
  | .removeNotify _ => (s.notify ok).map (·, .done)
  | .stop => some ({ s with closed := true }, .stopNotify)
  | .stopNotify => (s.notify ok).map (·, .done)
  | .done => none

/-- The Run thread but for its wait. `maxevents` grows before realloc is asked. -/
def runStep (s : Sys) (ok : Bool) : RunPc → Option Sys
  | .test => some { s with run := if s.closed then .idle else .wait }
  | .dispatch nfds [] =>
    if nfds = s.maxevents then
      some { s with maxevents := s.maxevents <<< 2, run := .load (if ok then 0 else -1) }
    else some { s with run := .load 0 }
  | .dispatch nfds (c :: batch) =>
    some { s with run := if c = notifyChannel then .drain nfds batch else .active nfds c batch }
  | .active nfds _ batch => some { s with run := .dispatch nfds batch }
  | .drain nfds batch =>
    if 0 < s.pipe then some { s with pipe := s.pipe - 4096 }
    else some { s with run := .dispatch nfds batch }
  | .load ret =>
    some { s with run := if s.reg.clearWaitRemove = 0 then .check ret else .lock ret }
  | .lock ret => if s.mtx = none then some { s with mtx := some .run, run := .store ret } else none
  | .store ret =>
    some { s with reg := { s.reg with clearWaitRemove := 0 }, run := .clear ret }
  | .clear ret =>
    some { s with reg := { s.reg with waitRemove := [] }, mtx := none, run := .check ret }
  | .check ret => some { s with run := if ret = 0 then .test else .idle }
  | .idle | .wait => none

/-- The events epoll may report: distinct descriptors that are registered. The notify channel is
level-triggered. -/
def Sys.mayPoll (s : Sys) (events : List Fd) : Prop :=
  events ≠ [] ∧ events.Nodup ∧ events.length ≤ s.maxevents ∧
    ∀ fd ∈ events, (s.reg.interest fd).isSome ∧
      (s.reg.interest fd = some notifyChannel → 0 < s.pipe)

instance (s : Sys) (events : List Fd) : Decidable (s.mayPoll events) :=
  inferInstanceAs (Decidable (_ ∧ _ ∧ _ ∧ _))

def step (fds : Channel → Fd) (s : Sys) : Label → Option Sys
  | .call c => some { s with calls := s.calls ++ [c.entry] }
  | .advance i ok => do
    let pc ← s.calls[i]?
    let (s, pc) ← callStep fds s i ok pc
    return { s with calls := s.calls.set i pc }
  | .start => if s.run = .idle then some { s with run := .test } else none
  | .poll events =>
    if s.run = .wait ∧ s.mayPoll events then
      some { s with run := .dispatch events.length (events.filterMap s.reg.interest) }
    else none
  | .pollFailed => if s.run = .wait then some { s with run := .load (-1) } else none
  | .runner ok => runStep s ok s.run

abbrev Reachable (fds : Channel → Fd) (ok : Bool) : Sys → Prop :=
  Machine.Reaches (step fds) (Sys.init fds ok)

theorem ctlAdd_spec {r r' : Registry} {c : Channel} {fd : Fd} {ok : Bool} {ret : ℤ}
    (h : r.ctlAdd c fd ok = (r', ret)) :
    ret = 0 ∧ r.interest fd = none ∧
      r' = { r with interest := Function.update r.interest fd (some c) } ∨
    ret ≠ 0 ∧ r' = r := by
  unfold Registry.ctlAdd at h
  split at h
  · rename_i hok
    obtain ⟨-, hnone⟩ := Bool.and_eq_true_iff.mp hok
    cases h
    exact .inl ⟨rfl, Option.isNone_iff_eq_none.mp hnone, rfl⟩
  · cases h
    exact .inr ⟨by decide, rfl⟩

theorem notify_spec {s s' : Sys} {ok : Bool} (h : s.notify ok = some s') :
    ∃ pipe, s' = { s with pipe } ∧ 0 < pipe ∧ s.pipe ≤ pipe := by
  unfold Sys.notify at h
  split_ifs at h with hok hfull
  · exact ⟨s.pipe + 4, (Option.some.inj h).symm, by omega, by omega⟩
  · exact ⟨s.pipe, (Option.some.inj h).symm, hfull, Nat.le_refl _⟩

end Hwnet.Poller
