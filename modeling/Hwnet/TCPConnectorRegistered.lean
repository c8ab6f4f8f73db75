import Hwnet.TCPConnectorOutcome

set_option autoImplicit false

/-!
# What a finished connector leaves in the poller

Only `OnActive` calls Remove. The entry is gone at the moment the task disposes of the descriptor
when an `OnActive` has been through its Remove by then; the path of the timeout does not see to it.
-/
namespace Hwnet.TCPConnector

open Poller (Channel Fd Registry)

def Sys.disposing (s : Sys) : Label → Option Fd
  | .run i => s.tasks[i]?.bind (DoPc.disposes s.conn)
  | _ => none

/-- An `OnActive` has been through Remove before the descriptor is disposed of, or Add had not
registered it. -/
def removedFirst (start : Sys) (s : Sys) (a : Label) : Bool :=
  match s.disposing a with
  | some fd => .removed fd ∈ s.log ∨ start.reg.channels fd = none
  | none => true

def Tracked (start s : Sys) : Prop :=
  ∀ fd : Fd, s.reg.channels fd = if .removed fd ∈ s.log then none else start.reg.channels fd

variable {start s s' : Sys}

theorem Tracked.gone (h : Tracked start s) {fd : Fd} :
    s.reg.channels fd = none ↔ .removed fd ∈ s.log ∨ start.reg.channels fd = none := by
  rw [h fd]
  by_cases hremoved : Event.removed fd ∈ s.log <;> simp [hremoved]

theorem Tracked.moved (h : Tracked start s) (e : Effect s s') : Tracked start s' := by
  intro fd
  rcases e.removed with ⟨hlog, hreg⟩ | ⟨hlog, hreg⟩
  · rw [hlog, hreg]
    exact h fd
  · rw [hlog, hreg]
    by_cases hfd : fd = s.conn.fd
    · subst hfd
      simp
    · rw [Function.update_of_ne hfd]
      simpa [hfd] using h fd

theorem Tracked.did (h : Tracked start s) {pc pc' : DoPc} {es : List Event}
    (e : DoEffect s s' pc pc' es) : Tracked start s' := by
  intro fd
  rw [e.reg, e.log]
  simpa [e.unremoved fd] using h fd

theorem post_spec {ok : Bool} (h : step s (.post ok) = some s') :
    s'.log = s.log ++ [.posted] ∧ s'.reg = s.reg := by
  simp only [step] at h
  split at h
  · cases h
    exact ⟨rfl, rfl⟩
  · cases h

theorem tracked_step (h : Tracked start s) {fd : Fd} (single : Single fd s) {a : Label}
    (hstep : step s a = some s') : Tracked start s' := by
  have hmoved := effect_step single.fresh hstep
  cases a with
  | caller | onActive | active i answer | expire | timeout => exact h.moved (hmoved nofun nofun)
  | post ok =>
    obtain ⟨hlog, hreg⟩ := post_spec hstep
    intro fd'
    rw [hlog, hreg]
    simpa using h fd'
  | run i =>
    simp only [step, Option.bind_eq_bind, Option.bind_eq_some_iff] at hstep
    obtain ⟨pc, at_, ⟨t, pc'⟩, hdo, hr⟩ := hstep
    cases hr
    obtain ⟨es, e⟩ := do_effect hdo single.callback
    have htracked : Tracked start t := h.did e
    exact htracked

def Clean (s : Sys) : Prop := ∀ e ∈ s.log, e.isDisposal = true → e.found = some none

theorem Clean.append (h : Clean s) {es : List Event} (log : s'.log = s.log ++ es)
    (new : ∀ e ∈ es, e.isDisposal = true → e.found = some none) : Clean s' := by
  intro e he hdisposal
  rw [log] at he
  rcases List.mem_append.mp he with hold | hnew
  · exact h e hold hdisposal
  · exact new e hnew hdisposal

theorem Clean.moved (h : Clean s) (e : Effect s s') : Clean s' := by
  rcases e.removed with ⟨hlog, -⟩ | ⟨hlog, -⟩
  · exact h.append (hlog.trans (List.append_nil _).symm) nofun
  · exact h.append hlog (by simp [Event.isDisposal, Event.disposes])

theorem clean_step (h : Clean s) (tracked : Tracked start s) {fd : Fd} (single : Single fd s)
    {a : Label} (first : removedFirst start s a = true) (hstep : step s a = some s') :
    Clean s' := by
  have hmoved := effect_step single.fresh hstep
  cases a with
  | caller | onActive | active i answer | expire | timeout => exact h.moved (hmoved nofun nofun)
  | post ok =>
    exact h.append (post_spec hstep).1 (by simp [Event.isDisposal, Event.disposes])
  | run i =>
    simp only [step, Option.bind_eq_bind, Option.bind_eq_some_iff] at hstep
    obtain ⟨pc, at_, ⟨t, pc'⟩, hdo, hr⟩ := hstep
    cases hr
    obtain ⟨es, e⟩ := do_effect hdo single.callback
    refine h.append e.log fun x hx hdisposal => ?_
    obtain ⟨fd', hfd⟩ := Option.isSome_iff_exists.mp hdisposal
    obtain ⟨hdisposes, hfound⟩ := e.own x hx fd' hfd
    have hgone : s.reg.channels fd' = none := by
      refine tracked.gone.mpr ?_
      simpa [removedFirst, Sys.disposing, at_, hdisposes] using first
    rw [hfound, hgone]

section Runs

variable {self : Channel} {k : TCPConnector} {reg : Registry} {ok : Bool} {timeout : ℕ}

theorem tracked_reachable (connected : k.Connected)
    (h : Reachable (Sys.start self k reg ok timeout) s) :
    Tracked (Sys.start self k reg ok timeout) s :=
  h.invariant (fun fd => by simp [Sys.start]) fun _ _ _ run hu _ hstep =>
    tracked_step hu (single_reachable connected run) hstep

/-- The step that disposes of a descriptor finds nothing registered exactly when an `OnActive` has
been through Remove first. -/
theorem found_none_iff (connected : k.Connected)
    (h : Reachable (Sys.start self k reg ok timeout) s) {a : Label} {fd : Fd}
    (disposing : s.disposing a = some fd) : s.reg.channels fd = none ↔
      removedFirst (Sys.start self k reg ok timeout) s a = true := by
  rw [(tracked_reachable connected h).gone]
  simp [removedFirst, disposing]

end Runs

/-- When an `OnActive` has been through Remove first, whatever the connector closes or hands over is
no longer registered at that moment. -/
theorem disposed_unregistered {self : Channel} {k : TCPConnector} (connected : k.Connected)
    {reg : Registry} {ok : Bool} {timeout : ℕ} {s : Sys}
    (h : Machine.Runs step (fun s a => removedFirst (Sys.start self k reg ok timeout) s a)
      (Sys.start self k reg ok timeout) s) :
    ∀ e ∈ s.log, e.isDisposal = true → e.found = some none := by
  have clean : Clean s := h.invariant nofun fun _ _ _ run hu first hstep =>
    clean_step hu (tracked_reachable connected run.reaches)
      (single_reachable connected run.reaches) first hstep
  exact clean

def eventFirst : List Label :=
  [.caller, .caller, .caller, .onActive, .active 0 (.value 0), .active 0 (.value 0),
    .active 0 (.value 0), .active 0 (.value 0), .active 0 (.value 0), .active 0 (.value 0),
    .active 0 (.value 0), .active 0 (.value 0), .post true, .run 0, .run 0, .run 0]

theorem disposed_unregistered_event : ∃ s : Sys,
    Machine.exec (Machine.guarded (removedFirst (Sys.start 7 sample Registry.empty true 100)) step)
      (Sys.start 7 sample Registry.empty true 100) eventFirst = some s ∧
    s.log = [.removed 5, .posted, .connectCallback 1 5 none] ∧
    ∀ e ∈ s.log, e.isDisposal = true → e.found = some none := by
  have h : (Machine.exec
      (Machine.guarded (removedFirst (Sys.start 7 sample Registry.empty true 100)) step)
      (Sys.start 7 sample Registry.empty true 100) eventFirst).map (fun s => s.log) =
      some [.removed 5, .posted, .connectCallback 1 5 none] := by decide
  obtain ⟨s, hs, hlog⟩ := Option.map_eq_some_iff.mp h
  exact ⟨s, hs, hlog, disposed_unregistered sample_connected (Machine.Runs.of_exec eventFirst hs)⟩

def noAnswer : List Label :=
  [.caller, .caller, .caller, .expire, .timeout, .timeout, .timeout, .post true, .run 0, .run 0,
    .run 0]

/-- The entry of the connector is still there when its number is closed, and Add refuses the next
channel with the number. -/
theorem timeout_leaves_entry : sample.Connected ∧ ∃ s : Sys,
    Machine.exec step (Sys.start 7 sample Registry.empty true 100) noAnswer = some s ∧
    Reachable (Sys.start 7 sample Registry.empty true 100) s ∧
    .closed 5 (some 7) ∈ s.log ∧ s.tasks = [.done] ∧ (s.reg.add 8 5 true).2 = -1 ∧
    ¬ ∀ e ∈ s.log, e.isDisposal = true → e.found = some none := by
  have h : (Machine.exec step (Sys.start 7 sample Registry.empty true 100) noAnswer).map
      (fun s => (s.log, s.tasks, (s.reg.add 8 5 true).2)) =
      some ([.posted, .closed 5 (some 7), .errorCallback 2 ETIMEDOUT], [.done], -1) := by decide
  obtain ⟨s, hs, hview⟩ := Option.map_eq_some_iff.mp h
  simp only [Prod.mk.injEq] at hview
  obtain ⟨hlog, htasks, hadd⟩ := hview
  have hclosed : Event.closed 5 (some 7) ∈ s.log := by simp [hlog]
  refine ⟨sample_connected, s, hs, Machine.Reaches.of_exec _ hs, hclosed, htasks, hadd, ?_⟩
  intro hclean
  cases hclean _ hclosed rfl

end Hwnet.TCPConnector
