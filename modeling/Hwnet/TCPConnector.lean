import Hwnet.Poller

set_option autoImplicit false

/-!
# The connector

A connector from the locked section of `Connect` on: the thread in `ConnectWithTimeout`, any number
of calls of `OnActive`, the callback of the timer, and the tasks. What only the mutex guards changes
with the step before or after it; the rest, which `OnActive` writes without the mutex, is cut at
every access.
-/
namespace Hwnet

open Poller (Channel Fd Registry)

namespace TCPConnector

abbrev Callback := ℕ

def EINPROGRESS : ℤ := 115
def ETIMEDOUT : ℤ := 110

end TCPConnector

/-- `connectTimer` is whether the handle has been given the timer and not been reset. -/
structure TCPConnector where
  fd : Fd
  connectCallback : Option TCPConnector.Callback
  errorCallback : Option TCPConnector.Callback
  started : Bool
  connectTimer : Bool
  doing : Bool
  gotError : Bool
  err : ℤ
  deriving DecidableEq, Repr

namespace TCPConnector

/-- The constructor does not set `fd`. -/
def new (fd : Fd) : TCPConnector := ⟨fd, none, none, false, false, false, false, 0⟩

/-- `Connect` up to its locked section, or to where it fails; `socket` is what the call of that name
returns, `ret` and `errno` what `connect` leaves. -/
def connect (k : TCPConnector) (connectFn errorFn : Option Callback) (valid : Bool)
    (socket ret errno : ℤ) : TCPConnector × Bool :=
  if k.started then (k, false)
  else
    let k := { k with started := true, connectCallback := connectFn, errorCallback := errorFn }
    if k.connectCallback.isNone then (k, false)
    else if !valid then (k, false)
    else
      let k := { k with fd := socket }
      if k.fd < 0 then (k, false)
      else if ret = 0 ∨ errno = EINPROGRESS then (k, true)
      else ({ k with fd := -1 }, false)

def Connected (k : TCPConnector) : Prop :=
  ∃ (fd : Fd) (connectFn errorFn : Option Callback) (valid : Bool) (socket ret errno : ℤ),
    (new fd).connect connectFn errorFn valid socket ret errno = (k, true)

/-! ## The threads -/

/-- The thread in `ConnectWithTimeout`, from the end of the locked section of `Connect`. -/
inductive CallerPc where
  | unlock
  | connected
  | assign
  | done
  deriving DecidableEq, Repr

inductive TimerPc where
  | absent
  | armed
  | canceled
  | fired
  | gotError
  | err
  | finished
  deriving DecidableEq, Repr

inductive ActivePc where
  | getsockopt
  | testErr
  | gotError (ret : Bool)
  | remove
  | removeCtl
  | cancel
  | reset
  | lock
  | done
  deriving DecidableEq, Repr

inductive DoPc where
  | queued
  | close
  | take
  | errorCallback (cb : Callback)
  | connectCallback (cb : Callback) (fd : Fd)
  | done
  deriving DecidableEq, Repr

/-- `entry` is what the poller has registered under the number at that moment. -/
inductive Event where
  | posted
  | removed (fd : Fd)
  | closed (fd : Fd) (entry : Option Channel)
  | connectCallback (cb : Callback) (fd : Fd) (entry : Option Channel)
  | errorCallback (cb : Callback) (err : ℤ)
  deriving DecidableEq, Repr

/-- `locked` is the mutex of the connector, `polling` the poller's; `posting` counts the threads
that hold `post = true` and have not reached PostTask. -/
structure Sys where
  self : Channel
  conn : TCPConnector
  reg : Registry
  locked : Bool
  polling : Bool
  timeout : ℕ
  caller : CallerPc
  timer : TimerPc
  actives : List ActivePc
  posting : ℕ
  tasks : List DoPc
  log : List Event

/-- `Connect` has called Add and holds the mutex; `ok` is what epoll answers. -/
def Sys.start (self : Channel) (k : TCPConnector) (reg : Registry) (ok : Bool) (timeout : ℕ) :
    Sys where
  self
  conn := k
  reg := (reg.add self k.fd ok).1
  locked := true
  polling := false
  timeout
  caller := .unlock
  timer := .absent
  actives := []
  posting := 0
  tasks := []
  log := []

inductive Sockopt where
  | failed (errno : ℤ)
  | value (err : ℤ)
  deriving DecidableEq, Repr

inductive Label where
  | caller
  | onActive
  | active (i : ℕ) (answer : Sockopt)
  | expire
  | timeout
  | post (ok : Bool)
  | run (i : ℕ)
  deriving DecidableEq, Repr

def callerStep (s : Sys) : CallerPc → Option Sys
  | .unlock => some { s with locked := false, caller := .connected }
  | .connected =>
    if 0 < s.timeout then some { s with timer := .armed, caller := .assign }
    else some { s with caller := .done }
  | .assign => some { s with conn.connectTimer := true, caller := .done }
  | .done => none

/-- The mutex of the poller is held from `remove` to `removeCtl`; what the entry is erased by is
found with the number that `Fd` gives, and `Fd` is asked again for epoll. -/
def activeStep (s : Sys) (answer : Sockopt) : ActivePc → Option (Sys × ActivePc)
  | .getsockopt =>
    match answer with
    | .failed errno => some ({ s with conn.err := errno }, .gotError true)
    | .value err => some ({ s with conn.err := err }, .testErr)
  | .testErr => some (s, .gotError (s.conn.err ≠ 0))
  | .gotError ret => some ({ s with conn.gotError := ret }, .remove)
  | .remove =>
    if s.polling then none
    else if (s.reg.channels s.conn.fd).isNone then
      some ({ s with log := s.log ++ [.removed s.conn.fd] }, .cancel)
    else
      some ({ s with
        reg := (s.reg.push s.self).erase s.conn.fd
        polling := true
        log := s.log ++ [.removed s.conn.fd] }, .removeCtl)
  | .removeCtl =>
    some ({ s with reg := (s.reg.ctlDel s.conn.fd).count, polling := false }, .cancel)
  | .cancel =>
    if s.conn.connectTimer ∧ s.timer ≠ .finished then
      some ({ s with timer := if s.timer = .armed then .canceled else s.timer }, .reset)
    else some (s, .lock)
  | .reset => some ({ s with conn.connectTimer := false }, .lock)
  | .lock =>
    if s.locked then none
    else if s.conn.doing then some (s, .done)
    else some ({ s with conn.doing := true, posting := s.posting + 1 }, .done)
  | .done => none

def timeoutStep (s : Sys) : TimerPc → Option Sys
  | .fired =>
    if s.locked then none
    else if s.conn.connectTimer ∧ ¬ s.conn.doing then
      some { s with
        locked := true
        conn.connectTimer := false
        conn.doing := true
        timer := .gotError }
    else some { s with timer := .finished }
  | .gotError => some { s with conn.gotError := true, timer := .err }
  | .err =>
    some { s with
      conn.err := ETIMEDOUT
      locked := false
      posting := s.posting + 1
      timer := .finished }
  | .absent | .armed | .canceled | .finished => none

def doStep (s : Sys) : DoPc → Option (Sys × DoPc)
  | .queued =>
    if s.locked then none
    else some ({ s with locked := true }, if s.conn.gotError then .close else .take)
  | .close =>
    some ({ s with
      locked := false
      log := s.log ++ [.closed s.conn.fd (s.reg.channels s.conn.fd)] },
      match s.conn.errorCallback with
      | some cb => .errorCallback cb
      | none => .done)
  | .take =>
    some ({ s with locked := false, conn.fd := -1 },
      match s.conn.connectCallback with
      | some cb => .connectCallback cb s.conn.fd
      | none => .done)
  | .errorCallback cb =>
    some ({ s with log := s.log ++ [.errorCallback cb s.conn.err] }, .done)
  | .connectCallback cb fd =>
    some ({ s with log := s.log ++ [.connectCallback cb fd (s.reg.channels fd)] }, .done)
  | .done => none

def step (s : Sys) : Label → Option Sys
  | .caller => callerStep s s.caller
  | .onActive => some { s with actives := s.actives ++ [.getsockopt] }
  | .active i answer => do
    let pc ← s.actives[i]?
    let (s, pc) ← activeStep s answer pc
    return { s with actives := s.actives.set i pc }
  | .expire => if s.timer = .armed then some { s with timer := .fired } else none
  | .timeout => timeoutStep s s.timer
  | .post ok =>
    if 0 < s.posting then
      some { s with
        posting := s.posting - 1
        tasks := if ok then s.tasks ++ [.queued] else s.tasks
        log := s.log ++ [.posted] }
    else none
  | .run i => do
    let pc ← s.tasks[i]?
    let (s, pc) ← doStep s pc
    return { s with tasks := s.tasks.set i pc }

abbrev Reachable (start : Sys) : Sys → Prop := Machine.Reaches step start

/-! ## What a step does -/

def TimerPc.claiming : TimerPc → Bool
  | .gotError | .err => true
  | _ => false

def Sys.pending (s : Sys) : ℕ := s.posting + s.timer.claiming.toNat

def Fresh (s : Sys) : Prop := s.caller = .unlock ∨ s.caller = .connected → s.timer = .absent

structure Effect (s s' : Sys) : Prop where
  fresh : Fresh s → Fresh s'
  fd : s'.conn.fd = s.conn.fd
  callback : s'.conn.connectCallback = s.conn.connectCallback
  tasks : s'.tasks = s.tasks
  claimed : s'.pending + s.conn.doing.toNat = s.pending + s'.conn.doing.toNat
  removed : s'.log = s.log ∧ s'.reg.channels = s.reg.channels ∨
    s'.log = s.log ++ [.removed s.conn.fd] ∧
      s'.reg.channels = Function.update s.reg.channels s.conn.fd none

theorem caller_cases {s s' : Sys} (h : callerStep s s.caller = some s') :
    s.caller = .unlock ∧ s' = { s with locked := false, caller := .connected } ∨
    s.caller = .connected ∧ s' = { s with timer := .armed, caller := .assign } ∨
    s.caller = .connected ∧ s' = { s with caller := .done } ∨
    s.caller = .assign ∧ s' = { s with conn.connectTimer := true, caller := .done } := by
  generalize hcaller : s.caller = pc at h
  cases pc with
  | unlock =>
    cases h
    exact .inl ⟨rfl, rfl⟩
  | connected =>
    simp only [callerStep] at h
    split_ifs at h
    · cases h
      exact .inr (.inl ⟨rfl, rfl⟩)
    · cases h
      exact .inr (.inr (.inl ⟨rfl, rfl⟩))
  | assign =>
    cases h
    exact .inr (.inr (.inr ⟨rfl, rfl⟩))
  | done => cases h

theorem caller_effect {s s' : Sys} (h : callerStep s s.caller = some s') (fresh : Fresh s) :
    Effect s s' := by
  obtain ⟨hcaller, rfl⟩ | ⟨hcaller, rfl⟩ | ⟨-, rfl⟩ | ⟨-, rfl⟩ := caller_cases h
  · exact ⟨fun _ _ => fresh (.inl hcaller), rfl, rfl, rfl, rfl, .inl ⟨rfl, rfl⟩⟩
  · have habsent := fresh (.inr hcaller)
    refine ⟨fun _ => nofun, rfl, rfl, rfl, ?_, .inl ⟨rfl, rfl⟩⟩
    simp [Sys.pending, habsent, TimerPc.claiming]
  · exact ⟨fun _ => nofun, rfl, rfl, rfl, rfl, .inl ⟨rfl, rfl⟩⟩
  · exact ⟨fun _ => nofun, rfl, rfl, rfl, rfl, .inl ⟨rfl, rfl⟩⟩

theorem active_effect {s s' : Sys} {answer : Sockopt} {pc pc' : ActivePc}
    (h : activeStep s answer pc = some (s', pc')) : Effect s s' := by
  cases pc with
  | getsockopt =>
    cases answer <;> (cases h; exact ⟨id, rfl, rfl, rfl, rfl, .inl ⟨rfl, rfl⟩⟩)
  | testErr | gotError ret | removeCtl | reset =>
    cases h
    exact ⟨id, rfl, rfl, rfl, rfl, .inl ⟨rfl, rfl⟩⟩
  | remove =>
    simp only [activeStep] at h
    split_ifs at h with hpolling hnone
    · cases h
      have hsame := Function.update_eq_self s.conn.fd s.reg.channels
      rw [Option.isNone_iff_eq_none.mp hnone] at hsame
      exact ⟨id, rfl, rfl, rfl, rfl, .inr ⟨rfl, hsame.symm⟩⟩
    · cases h
      exact ⟨id, rfl, rfl, rfl, rfl, .inr ⟨rfl, rfl⟩⟩
  | cancel =>
    simp only [activeStep] at h
    split_ifs at h with htimer harmed
    · cases h
      refine ⟨fun fresh hcaller => ?_, rfl, rfl, rfl, ?_, .inl ⟨rfl, rfl⟩⟩
      · cases harmed.symm.trans (fresh hcaller)
      · simp [Sys.pending, harmed, TimerPc.claiming]
    · cases h
      exact ⟨id, rfl, rfl, rfl, rfl, .inl ⟨rfl, rfl⟩⟩
    · cases h
      exact ⟨id, rfl, rfl, rfl, rfl, .inl ⟨rfl, rfl⟩⟩
  | lock =>
    simp only [activeStep] at h
    split_ifs at h with hlocked hdoing
    · cases h
      exact ⟨id, rfl, rfl, rfl, rfl, .inl ⟨rfl, rfl⟩⟩
    · cases h
      have hidle : s.conn.doing = false := Bool.eq_false_iff.mpr hdoing
      refine ⟨id, rfl, rfl, rfl, ?_, .inl ⟨rfl, rfl⟩⟩
      simp only [Sys.pending, hidle, Bool.toNat_false, Bool.toNat_true]
      omega
  | done => cases h

theorem timeout_effect {s s' : Sys} (h : timeoutStep s s.timer = some s') : Effect s s' := by
  generalize htimer : s.timer = pc at h
  have hpending : s.pending = s.posting + pc.claiming.toNat := by rw [Sys.pending, htimer]
  have hfresh (present : pc ≠ .absent) {t : Sys} (same : t.caller = s.caller) :
      Fresh s → Fresh t :=
    fun fresh hcaller => absurd (htimer.symm.trans (fresh (same ▸ hcaller))) present
  cases pc with
  | absent | armed | canceled | finished => cases h
  | fired =>
    simp only [timeoutStep] at h
    split_ifs at h with hlocked hclaim
    · cases h
      have hidle : s.conn.doing = false := Bool.eq_false_iff.mpr hclaim.2
      refine ⟨hfresh nofun rfl, rfl, rfl, rfl, ?_, .inl ⟨rfl, rfl⟩⟩
      rw [hpending, hidle]
      rfl
    · cases h
      refine ⟨hfresh nofun rfl, rfl, rfl, rfl, ?_, .inl ⟨rfl, rfl⟩⟩
      rw [hpending]
      rfl
  | gotError | err =>
    cases h
    refine ⟨hfresh nofun rfl, rfl, rfl, rfl, ?_, .inl ⟨rfl, rfl⟩⟩
    rw [hpending]
    rfl

theorem effect_step {s s' : Sys} (fresh : Fresh s) {a : Label} (hstep : step s a = some s')
    (unposted : ∀ ok, a ≠ .post ok) (undone : ∀ i, a ≠ .run i) : Effect s s' := by
  cases a with
  | caller => exact caller_effect hstep fresh
  | onActive =>
    cases hstep
    exact ⟨id, rfl, rfl, rfl, rfl, .inl ⟨rfl, rfl⟩⟩
  | active i answer =>
    simp only [step, Option.bind_eq_bind, Option.bind_eq_some_iff] at hstep
    obtain ⟨pc, at_, ⟨t, pc'⟩, hactive, hr⟩ := hstep
    cases hr
    have e := active_effect hactive
    exact ⟨e.fresh, e.fd, e.callback, e.tasks, e.claimed, e.removed⟩
  | expire =>
    simp only [step] at hstep
    split_ifs at hstep with harmed
    cases hstep
    refine ⟨fun fresh hcaller => ?_, rfl, rfl, rfl, ?_, .inl ⟨rfl, rfl⟩⟩
    · cases harmed.symm.trans (fresh hcaller)
    · simp [Sys.pending, harmed, TimerPc.claiming]
  | timeout => exact timeout_effect hstep
  | post ok => exact absurd rfl (unposted ok)
  | run i => exact absurd rfl (undone i)

def Event.isPosted : Event → Bool
  | .posted => true
  | _ => false

def Event.isCallback : Event → Bool
  | .connectCallback .. | .errorCallback .. => true
  | _ => false

def Event.disposes : Event → Option Fd
  | .closed fd _ | .connectCallback _ fd _ => some fd
  | _ => none

def Event.isDisposal (e : Event) : Bool := e.disposes.isSome

def Event.found : Event → Option (Option Channel)
  | .closed _ entry | .connectCallback _ _ entry => some entry
  | _ => none

def DoPc.disposes (k : TCPConnector) : DoPc → Option Fd
  | .close => some k.fd
  | .connectCallback _ fd => some fd
  | _ => none

def DoPc.disposed : DoPc → Bool
  | .errorCallback _ | .done => true
  | _ => false

def DoPc.past : DoPc → Bool
  | .errorCallback _ | .connectCallback .. | .done => true
  | _ => false

def DoPc.isDone : DoPc → Bool
  | .done => true
  | _ => false

structure DoEffect (s s' : Sys) (pc pc' : DoPc) (es : List Event) : Prop where
  fresh : Fresh s → Fresh s'
  tasks : s'.tasks = s.tasks
  reg : s'.reg = s.reg
  pending : s'.pending = s.pending
  doing : s'.conn.doing = s.conn.doing
  callback : s'.conn.connectCallback = s.conn.connectCallback
  log : s'.log = s.log ++ es
  unposted : es.countP Event.isPosted = 0
  disposed : es.countP Event.isDisposal + pc.disposed.toNat = pc'.disposed.toNat
  called : es.countP Event.isCallback + pc.isDone.toNat ≤ pc'.isDone.toNat
  kept : pc'.past = true ∨ pc.past = false ∧ s'.conn.fd = s.conn.fd
  handed : ∀ (cb : Callback) (fd : Fd), pc' = .connectCallback cb fd →
    pc.past = false ∧ fd = s.conn.fd
  own : ∀ e ∈ es, ∀ fd : Fd, e.disposes = some fd →
    pc.disposes s.conn = some fd ∧ e.found = some (s.reg.channels fd)
  unremoved : ∀ fd : Fd, .removed fd ∉ es

theorem do_effect {s s' : Sys} {pc pc' : DoPc} (h : doStep s pc = some (s', pc'))
    (callback : s.conn.connectCallback ≠ none) : ∃ es, DoEffect s s' pc pc' es := by
  cases pc with
  | queued =>
    simp only [doStep] at h
    split_ifs at h <;>
      (cases h
       exact ⟨[], id, rfl, rfl, rfl, rfl, rfl, (List.append_nil _).symm, rfl, rfl, Nat.le_refl 0,
        .inr ⟨rfl, rfl⟩, nofun, nofun, by simp⟩)
  | close =>
    simp only [doStep] at h
    split at h <;>
      (cases h
       refine ⟨[.closed s.conn.fd (s.reg.channels s.conn.fd)], id, rfl, rfl, rfl, rfl, rfl, rfl,
        rfl, rfl, Nat.zero_le _, .inl rfl, nofun, fun e he fd hfd => ?_, by simp⟩
       rw [List.mem_singleton.mp he] at hfd ⊢
       cases hfd
       exact ⟨rfl, rfl⟩)
  | take =>
    obtain ⟨cb, hcb⟩ := Option.ne_none_iff_exists'.mp callback
    simp only [doStep, hcb] at h
    cases h
    refine ⟨[], id, rfl, rfl, rfl, rfl, hcb.symm, (List.append_nil _).symm, rfl, rfl,
      Nat.le_refl 0, .inl rfl, fun cb' fd hpc => ?_, nofun, by simp⟩
    cases hpc
    exact ⟨rfl, rfl⟩
  | errorCallback cb =>
    cases h
    refine ⟨[.errorCallback cb s.conn.err], id, rfl, rfl, rfl, rfl, rfl, rfl, rfl, rfl,
      Nat.le_refl 1, .inl rfl, nofun, fun e he fd hfd => ?_, by simp⟩
    rw [List.mem_singleton.mp he] at hfd
    cases hfd
  | connectCallback cb fd =>
    cases h
    refine ⟨[.connectCallback cb fd (s.reg.channels fd)], id, rfl, rfl, rfl, rfl, rfl, rfl, rfl,
      rfl, Nat.le_refl 1, .inl rfl, nofun, fun e he fd' hfd => ?_, by simp⟩
    rw [List.mem_singleton.mp he] at hfd ⊢
    cases hfd
    exact ⟨rfl, rfl⟩
  | done => cases h

end TCPConnector

end Hwnet
