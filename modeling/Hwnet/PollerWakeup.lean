import Hwnet.PollerAlive

set_option autoImplicit false

/-!
# The poller's wake-ups

Only the Remove that finds the counter at zero writes to the pipe. The Run thread empties the pipe
before it looks at the counter, so what it has not looked at is still in the pipe, or about to be
written.
-/
namespace Hwnet.Poller

variable {fds : Channel → Fd}

def CallPc.notifying : CallPc → Bool
  | .removeNotify _ | .stopNotify => true
  | _ => false

/-- A wake-up is in the pipe or on its way to it. -/
def Announced (s : Sys) : Prop := 0 < s.pipe ∨ ∃ pc ∈ s.calls, pc.notifying = true

/-- The counter has been looked at and the pipe will not be read before the next wait is over. -/
def RunPc.settled : RunPc → Bool
  | .idle | .test | .wait | .clear _ | .check _ => true
  | _ => false

structure Awake (s : Sys) : Prop where
  removed : s.run.settled = true → s.reg.clearWaitRemove ≠ 0 → Announced s
  closed : s.run = .wait → s.closed = true → Announced s

theorem ctlAdd_counter {r r' : Registry} {c : Channel} {fd : Fd} {ok : Bool} {ret : ℤ}
    (h : r.ctlAdd c fd ok = (r', ret)) : r'.clearWaitRemove = r.clearWaitRemove := by
  rcases ctlAdd_spec h with ⟨-, -, rfl⟩ | ⟨-, rfl⟩ <;> rfl

structure Nudge (s s' : Sys) (pc pc' : CallPc) : Prop where
  run : s'.run = s.run
  calls : s'.calls = s.calls
  pipe : s.pipe ≤ s'.pipe
  written : pc.notifying = true → 0 < s'.pipe
  counter : s'.reg.clearWaitRemove = s.reg.clearWaitRemove ∨
    pc'.notifying = true ∨ s.reg.clearWaitRemove ≠ 0
  closed : s'.closed = s.closed ∨ pc'.notifying = true

theorem call_nudge {s s' : Sys} {i : ℕ} {ok : Bool} {pc pc' : CallPc}
    (hstep : callStep fds s i ok pc = some (s', pc')) : Nudge s s' pc pc' := by
  cases pc with
  | add c | remove c =>
    simp only [callStep] at hstep
    split_ifs at hstep <;>
      (cases hstep; exact ⟨rfl, rfl, Nat.le_refl _, Bool.noConfusion, .inl rfl, .inl rfl⟩)
  | addCtl c =>
    simp only [callStep] at hstep
    cases hctl : s.reg.ctlAdd c (fds c) ok with
    | mk reg ret =>
      rw [hctl] at hstep
      have hcounter := ctlAdd_counter hctl
      dsimp only at hstep
      split_ifs at hstep <;>
        (cases hstep; exact ⟨rfl, rfl, Nat.le_refl _, Bool.noConfusion, .inl hcounter, .inl rfl⟩)
  | addInsert c | removePush c | removeErase c | removeCtl c =>
    cases hstep
    exact ⟨rfl, rfl, Nat.le_refl _, Bool.noConfusion, .inl rfl, .inl rfl⟩
  | removeCount c =>
    cases hstep
    refine ⟨rfl, rfl, Nat.le_refl _, Bool.noConfusion, .inr ?_, .inl rfl⟩
    -- the counter is one after it was zero
    by_cases hzero : s.reg.clearWaitRemove = 0
    · refine .inl ?_
      have hone : s.reg.count.clearWaitRemove = 1 := by
        show s.reg.clearWaitRemove + 1 = 1
        rw [hzero]
        rfl
      rw [if_pos hone]
      rfl
    · exact .inr hzero
  | removeNotify c | stopNotify =>
    simp only [callStep, Option.map_eq_some_iff] at hstep
    obtain ⟨t, hnotify, hr⟩ := hstep
    cases hr
    obtain ⟨pipe, rfl, hpos, hle⟩ := notify_spec hnotify
    exact ⟨rfl, rfl, hle, fun _ => hpos, .inl rfl, .inl rfl⟩
  | stop =>
    cases hstep
    exact ⟨rfl, rfl, Nat.le_refl _, Bool.noConfusion, .inl rfl, .inr rfl⟩
  | done => cases hstep

/-- What was announced stays announced when a call moves. -/
theorem Nudge.announced {s s' : Sys} {i : ℕ} {pc pc' : CallPc} (h : Nudge s s' pc pc')
    (at_ : s.calls[i]? = some pc) (old : Announced s) :
    Announced { s' with calls := s'.calls.set i pc' } := by
  obtain hpipe | ⟨q, hq, hnotifying⟩ := old
  · exact .inl (Nat.lt_of_lt_of_le hpipe h.pipe)
  · obtain ⟨j, hj⟩ := List.mem_iff_getElem?.mp hq
    by_cases hji : i = j
    · subst hji
      obtain rfl := Option.some.inj (at_.symm.trans hj)
      exact .inl (h.written hnotifying)
    · refine .inr ⟨q, ?_, hnotifying⟩
      rw [h.calls]
      exact List.mem_of_getElem? ((List.getElem?_set_ne hji).trans hj)

theorem Nudge.announces {s s' : Sys} {i : ℕ} {pc pc' : CallPc} (h : Nudge s s' pc pc')
    (at_ : s.calls[i]? = some pc) (new : pc'.notifying = true) :
    Announced { s' with calls := s'.calls.set i pc' } := by
  refine .inr ⟨pc', ?_, new⟩
  rw [h.calls]
  have hlen := (List.getElem?_eq_some_iff.mp at_).1
  exact List.mem_of_getElem? (List.getElem?_set_self hlen)

theorem awake_call {s s' : Sys} (h : Awake s) {i : ℕ} {pc pc' : CallPc}
    (at_ : s.calls[i]? = some pc) (nudge : Nudge s s' pc pc') :
    Awake { s' with calls := s'.calls.set i pc' } := by
  refine ⟨fun hsettled hcounter => ?_, fun hwait hclosed => ?_⟩
  · have hold := h.removed (nudge.run ▸ hsettled)
    rcases nudge.counter with hsame | hnew | hbefore
    · exact nudge.announced at_ (hold (hsame ▸ hcounter))
    · exact nudge.announces at_ hnew
    · exact nudge.announced at_ (hold hbefore)
  · rcases nudge.closed with hsame | hnew
    · exact nudge.announced at_ (h.closed (nudge.run ▸ hwait) (hsame ▸ hclosed))
    · exact nudge.announces at_ hnew

/-- Where the counter is still to be looked at, nothing has to be announced. -/
theorem Awake.of_unsettled {s : Sys} (h : s.run.settled = false) : Awake s := by
  refine ⟨fun hsettled => ?_, fun hwait => ?_⟩
  · rw [h] at hsettled
    cases hsettled
  · rw [hwait] at h
    cases h

theorem awake_run {s s' : Sys} (h : Awake s) {ok : Bool} (hstep : runStep s ok s.run = some s') :
    Awake s' := by
  have hremoved := h.removed
  generalize hrun : s.run = pc at hstep hremoved
  cases pc with
  | idle | wait => cases hstep
  | test =>
    cases hstep
    refine ⟨fun _ => hremoved rfl, fun hwait hclosed => ?_⟩
    dsimp only at hwait hclosed
    rw [if_pos hclosed] at hwait
    cases hwait
  | dispatch nfds batch =>
    cases batch with
    | nil =>
      simp only [runStep] at hstep
      split_ifs at hstep <;> (cases hstep; exact .of_unsettled rfl)
    | cons c batch =>
      cases hstep
      refine .of_unsettled ?_
      dsimp only
      split <;> rfl
  | active nfds c batch =>
    cases hstep
    exact .of_unsettled rfl
  | drain nfds batch =>
    simp only [runStep] at hstep
    split_ifs at hstep
    · cases hstep
      exact .of_unsettled (by rw [hrun]; rfl)
    · cases hstep
      exact .of_unsettled rfl
  | load ret =>
    cases hstep
    refine ⟨fun hsettled hcounter => ?_, fun hwait => ?_⟩
    · dsimp only at hsettled
      rw [if_neg hcounter] at hsettled
      cases hsettled
    · dsimp only at hwait
      split at hwait <;> cases hwait
  | lock ret =>
    simp only [runStep] at hstep
    split_ifs at hstep
    cases hstep
    exact .of_unsettled rfl
  | store ret =>
    cases hstep
    exact ⟨fun _ hcounter => absurd rfl hcounter, fun hwait => by cases hwait⟩
  | clear ret =>
    cases hstep
    exact ⟨fun _ => hremoved rfl, fun hwait => by cases hwait⟩
  | check ret =>
    cases hstep
    refine ⟨fun _ => hremoved rfl, fun hwait => ?_⟩
    dsimp only at hwait
    split at hwait <;> cases hwait

theorem awake_step {s s' : Sys} (h : Awake s) {a : Label} (hstep : step fds s a = some s') :
    Awake s' := by
  cases a with
  | call c =>
    obtain rfl := Option.some.inj hstep
    have hold (old : Announced s) : Announced { s with calls := s.calls ++ [c.entry] } :=
      old.imp_right fun ⟨q, hq, hnotifying⟩ => ⟨q, List.mem_append_left _ hq, hnotifying⟩
    exact ⟨fun hsettled hcounter => hold (h.removed hsettled hcounter),
      fun hwait hclosed => hold (h.closed hwait hclosed)⟩
  | advance i ok =>
    simp only [step, Option.bind_eq_bind, Option.bind_eq_some_iff] at hstep
    obtain ⟨pc, at_, ⟨t, pc'⟩, hcall, hr⟩ := hstep
    cases hr
    exact awake_call h at_ (call_nudge hcall)
  | start =>
    simp only [step] at hstep
    split_ifs at hstep with hidle
    cases hstep
    exact ⟨fun _ => h.removed (by rw [hidle]; rfl), fun hwait => by cases hwait⟩
  | poll events | pollFailed =>
    simp only [step] at hstep
    split_ifs at hstep
    cases hstep
    exact .of_unsettled rfl
  | runner ok => exact awake_run h hstep

/-- When the Run thread waits with an empty pipe, the call that makes it necessary to wake it has
still to write. -/
theorem no_wakeup_lost {fds : Channel → Fd} {ok : Bool} {s : Sys} (h : Reachable fds ok s)
    (waits : s.run = .wait) (empty : s.pipe = 0)
    (work : s.reg.clearWaitRemove ≠ 0 ∨ s.closed = true) :
    ∃ pc ∈ s.calls, pc.notifying = true := by
  have hinit : (Sys.init fds ok).reg.clearWaitRemove = 0 := by cases ok <;> rfl
  have inv : Awake s := h.invariant (I := Awake)
    ⟨fun _ hne => absurd hinit hne, fun hwait => by cases hwait⟩
    fun _ _ _ _ hu _ hstep => awake_step hu hstep
  have hannounced : Announced s := by
    rcases work with hcounter | hclosed
    · exact inv.removed (by rw [waits]; rfl) hcounter
    · exact inv.closed waits hclosed
  rcases hannounced with hpipe | hcall
  · omega
  · exact hcall

/-- The Run thread is about to wait when a channel is removed. -/
theorem no_wakeup_lost_removing : ∃ s : Sys,
    Machine.exec (step Int.ofNat) (Sys.init Int.ofNat true)
      [.call (.add 1), .advance 0 true, .advance 0 true, .advance 0 true, .start, .runner true,
        .call (.remove 1), .advance 1 true, .advance 1 true, .advance 1 true, .advance 1 true,
        .advance 1 true] = some s ∧
    s.run = .wait ∧ s.pipe = 0 ∧ s.reg.clearWaitRemove = 1 ∧
    ∃ pc ∈ s.calls, pc.notifying = true := by
  have h : (Machine.exec (step Int.ofNat) (Sys.init Int.ofNat true)
      [.call (.add 1), .advance 0 true, .advance 0 true, .advance 0 true, .start, .runner true,
        .call (.remove 1), .advance 1 true, .advance 1 true, .advance 1 true, .advance 1 true,
        .advance 1 true]).map (fun s => (s.run, s.pipe, s.reg.clearWaitRemove)) =
      some (.wait, 0, 1) := by decide
  obtain ⟨s, hs, hview⟩ := Option.map_eq_some_iff.mp h
  simp only [Prod.mk.injEq] at hview
  obtain ⟨hwait, hpipe, hcounter⟩ := hview
  refine ⟨s, hs, hwait, hpipe, hcounter, ?_⟩
  refine no_wakeup_lost (Machine.Reaches.of_exec _ hs) hwait hpipe (.inl ?_)
  rw [hcounter]
  decide

end Hwnet.Poller
