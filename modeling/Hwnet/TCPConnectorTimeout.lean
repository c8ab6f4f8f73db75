import Hwnet.TCPConnectorOutcome

set_option autoImplicit false

/-!
# The timeout of a connector

The callback knows its timer by the handle, which `ConnectWithTimeout` stores after the timer was
armed and which an `OnActive` takes away before it claims the connector. Where the callback comes
before the one or between the other two, it does nothing.
-/
namespace Hwnet.TCPConnector

open Poller (Channel Fd Registry)

abbrev Others (_ : Sys) (a : Label) : Prop := a ≠ .timeout

/-- The next section of the callback claims the connector, and whatever the others do meanwhile, the
callback goes on to set the error and to post a task. -/
def TimesOut (s : Sys) : Prop :=
  ∃ t, step s .timeout = some t ∧ s.conn.doing = false ∧ t.conn.doing = true ∧
    ∀ u, Machine.Runs step Others t u → ∃ v, step u .timeout = some v ∧ v.conn.gotError = true ∧
      ∀ w, Machine.Runs step Others v w → ∃ x, step w .timeout = some x ∧
        x.conn.err = ETIMEDOUT ∧ x.posting = w.posting + 1

def resets (s : Sys) : Label → Bool
  | .active i _ => s.actives[i]? = some .reset
  | _ => false

variable {s s' : Sys}

structure Unstored (s : Sys) : Prop where
  fresh : Fresh s
  handle : s.caller ≠ .done → s.conn.connectTimer = false
  actives : s.caller ≠ .done → ∀ pc ∈ s.actives, pc ≠ .reset

def TimerPc.waiting : TimerPc → Bool
  | .armed | .canceled | .fired => true
  | _ => false

def Stored (s : Sys) : Prop :=
  s.caller = .done → s.timer.waiting = true → s.conn.connectTimer = true

structure Gone (s : Sys) : Prop where
  caller : s.caller = .done
  handle : s.conn.connectTimer = false

structure Handled (s s' : Sys) (a : Label) : Prop where
  caller : s'.caller = s.caller
  handle : s'.conn.connectTimer = s.conn.connectTimer ∨ s'.conn.connectTimer = false ∧
    (resets s a = true ∨ a = .timeout ∧ s'.timer.waiting = false)
  timer : s'.timer = s.timer ∨ s.timer = .armed ∧ s'.timer.waiting = true ∨
    a = .timeout ∧ s.timer ≠ .absent ∧ s'.timer.waiting = false
  actives : ∀ pc ∈ s'.actives, pc = .reset → pc ∈ s.actives ∨ s.conn.connectTimer = true

theorem handled_active {i : ℕ} {answer : Sockopt} (h : step s (.active i answer) = some s') :
    Handled s s' (.active i answer) := by
  simp only [step, Option.bind_eq_bind, Option.bind_eq_some_iff] at h
  obtain ⟨pc, at_, ⟨t, pc'⟩, hactive, hr⟩ := h
  cases hr
  have hactives (hnew : pc' = .reset → s.conn.connectTimer = true) :
      ∀ x ∈ s.actives.set i pc', x = .reset → x ∈ s.actives ∨ s.conn.connectTimer = true := by
    intro x hx hreset
    rcases List.mem_or_eq_of_mem_set hx with hold | rfl
    · exact .inl hold
    · exact .inr (hnew hreset)
  cases pc with
  | getsockopt =>
    cases answer <;> (cases hactive; exact ⟨rfl, .inl rfl, .inl rfl, hactives (by simp)⟩)
  | testErr | gotError ret | removeCtl =>
    cases hactive
    exact ⟨rfl, .inl rfl, .inl rfl, hactives (by simp)⟩
  | remove =>
    simp only [activeStep] at hactive
    split_ifs at hactive <;> (cases hactive; exact ⟨rfl, .inl rfl, .inl rfl, hactives (by simp)⟩)
  | cancel =>
    simp only [activeStep] at hactive
    split_ifs at hactive with hstored harmed
    · cases hactive
      exact ⟨rfl, .inl rfl, .inr (.inl ⟨harmed, rfl⟩), hactives fun _ => hstored.1⟩
    · cases hactive
      exact ⟨rfl, .inl rfl, .inl rfl, hactives fun _ => hstored.1⟩
    · cases hactive
      exact ⟨rfl, .inl rfl, .inl rfl, hactives (by simp)⟩
  | reset =>
    cases hactive
    exact ⟨rfl, .inr ⟨rfl, .inl (by simp [resets, at_])⟩, .inl rfl, hactives (by simp)⟩
  | lock =>
    simp only [activeStep] at hactive
    split_ifs at hactive <;> (cases hactive; exact ⟨rfl, .inl rfl, .inl rfl, hactives (by simp)⟩)
  | done => cases hactive

theorem handled_timeout (h : step s .timeout = some s') : Handled s s' .timeout := by
  have hactives {t : Sys} (same : t.actives = s.actives) :
      ∀ pc ∈ t.actives, pc = .reset → pc ∈ s.actives ∨ s.conn.connectTimer = true :=
    fun pc hpc _ => .inl (same ▸ hpc)
  simp only [step] at h
  generalize htimer : s.timer = pc at h
  have hpresent (present : pc ≠ .absent) : s.timer ≠ .absent := htimer ▸ present
  cases pc with
  | absent | armed | canceled | finished => cases h
  | fired =>
    simp only [timeoutStep] at h
    split_ifs at h
    · cases h
      exact ⟨rfl, .inr ⟨rfl, .inr ⟨rfl, rfl⟩⟩, .inr (.inr ⟨rfl, hpresent (by simp), rfl⟩),
        hactives rfl⟩
    · cases h
      exact ⟨rfl, .inl rfl, .inr (.inr ⟨rfl, hpresent (by simp), rfl⟩), hactives rfl⟩
  | gotError | err =>
    cases h
    exact ⟨rfl, .inl rfl, .inr (.inr ⟨rfl, hpresent (by simp), rfl⟩), hactives rfl⟩

theorem handled_step {a : Label} (h : step s a = some s') (other : a ≠ .caller) :
    Handled s s' a := by
  have hactives {t : Sys} (same : t.actives = s.actives) :
      ∀ pc ∈ t.actives, pc = .reset → pc ∈ s.actives ∨ s.conn.connectTimer = true :=
    fun pc hpc _ => .inl (same ▸ hpc)
  cases a with
  | caller => exact absurd rfl other
  | onActive =>
    cases h
    refine ⟨rfl, .inl rfl, .inl rfl, fun pc hpc hreset => ?_⟩
    rcases List.mem_append.mp hpc with hold | hnew
    · exact .inl hold
    · cases (List.mem_singleton.mp hnew).symm.trans hreset
  | active i answer => exact handled_active h
  | expire =>
    simp only [step] at h
    split_ifs at h with harmed
    cases h
    exact ⟨rfl, .inl rfl, .inr (.inl ⟨harmed, rfl⟩), hactives rfl⟩
  | timeout => exact handled_timeout h
  | post ok =>
    simp only [step] at h
    by_cases hposting : 0 < s.posting
    · rw [if_pos hposting] at h
      cases h
      exact ⟨rfl, .inl rfl, .inl rfl, hactives rfl⟩
    · rw [if_neg hposting] at h
      cases h
  | run i =>
    simp only [step, Option.bind_eq_bind, Option.bind_eq_some_iff] at h
    obtain ⟨pc, -, ⟨t, pc'⟩, hdo, hr⟩ := h
    cases hr
    have hsame : t.caller = s.caller ∧ t.conn.connectTimer = s.conn.connectTimer ∧
        t.timer = s.timer ∧ t.actives = s.actives := by
      cases pc with
      | queued =>
        simp only [doStep] at hdo
        split_ifs at hdo <;> (cases hdo; exact ⟨rfl, rfl, rfl, rfl⟩)
      | close | take | errorCallback cb | connectCallback cb fd =>
        cases hdo
        exact ⟨rfl, rfl, rfl, rfl⟩
      | done => cases hdo
    exact ⟨hsame.1, .inl hsame.2.1, .inl hsame.2.2.1, hactives hsame.2.2.2⟩

/-! ## Invariants of the handle -/

theorem unstored_step (h : Unstored s) {a : Label} (hstep : step s a = some s') :
    Unstored s' := by
  by_cases hcaller : a = .caller
  · subst hcaller
    obtain ⟨hpc, rfl⟩ | ⟨hpc, rfl⟩ | ⟨-, rfl⟩ | ⟨-, rfl⟩ := caller_cases hstep
    · have hbefore : s.caller ≠ .done := by simp [hpc]
      exact ⟨fun _ => h.fresh (.inl hpc), fun _ => h.handle hbefore, fun _ => h.actives hbefore⟩
    · have hbefore : s.caller ≠ .done := by simp [hpc]
      exact ⟨by simp [Fresh], fun _ => h.handle hbefore, fun _ => h.actives hbefore⟩
    · exact ⟨by simp [Fresh], fun ne => absurd rfl ne, fun ne => absurd rfl ne⟩
    · exact ⟨by simp [Fresh], fun ne => absurd rfl ne, fun ne => absurd rfl ne⟩
  · have e := handled_step hstep hcaller
    refine ⟨fun hearly => ?_, fun ne => ?_, fun ne pc hpc hreset => ?_⟩
    · rw [e.caller] at hearly
      have habsent := h.fresh hearly
      rcases e.timer with hsame | ⟨harmed, -⟩ | ⟨-, hpresent, -⟩
      · exact hsame.trans habsent
      · cases harmed.symm.trans habsent
      · exact absurd habsent hpresent
    · rw [e.caller] at ne
      rcases e.handle with hsame | ⟨hfalse, -⟩
      · exact hsame.trans (h.handle ne)
      · exact hfalse
    · rw [e.caller] at ne
      rcases e.actives pc hpc hreset with hold | hstored
      · exact h.actives ne pc hold hreset
      · rw [h.handle ne] at hstored
        cases hstored

theorem stored_step (unstored : Unstored s) (h : Stored s) {a : Label}
    (hstep : step s a = some s') (keeps : resets s a = false) : Stored s' := by
  by_cases hcaller : a = .caller
  · subst hcaller
    obtain ⟨-, rfl⟩ | ⟨-, rfl⟩ | ⟨hpc, rfl⟩ | ⟨-, rfl⟩ := caller_cases hstep
    · exact fun hdone => by cases hdone
    · exact fun hdone => by cases hdone
    · intro _ hwaiting
      have habsent := unstored.fresh (.inr hpc)
      rw [habsent] at hwaiting
      cases hwaiting
    · exact fun _ _ => rfl
  · have e := handled_step hstep hcaller
    intro hdone hwaiting
    rw [e.caller] at hdone
    have hbefore : s.timer.waiting = true := by
      rcases e.timer with hsame | ⟨harmed, -⟩ | ⟨-, -, hover⟩
      · exact hsame ▸ hwaiting
      · rw [harmed]
        rfl
      · rw [hover] at hwaiting
        cases hwaiting
    rcases e.handle with hsame | ⟨-, hreset | ⟨-, hover⟩⟩
    · exact hsame.trans (h hdone hbefore)
    · rw [keeps] at hreset
      cases hreset
    · rw [hover] at hwaiting
      cases hwaiting

theorem gone_step (h : Gone s) {a : Label} (hstep : step s a = some s') : Gone s' := by
  by_cases hcaller : a = .caller
  · subst hcaller
    simp [step, h.caller, callerStep] at hstep
  · have e := handled_step hstep hcaller
    refine ⟨e.caller.trans h.caller, ?_⟩
    rcases e.handle with hsame | ⟨hfalse, -⟩
    · exact hsame.trans h.handle
    · exact hfalse

/-- A reset takes the handle away for good. -/
theorem gone_of_resets (h : Unstored s) {a : Label} (hstep : step s a = some s')
    (hreset : resets s a = true) : Gone s' := by
  cases a with
  | active i answer =>
    have hat : s.actives[i]? = some .reset := by simpa [resets] using hreset
    have hdone : s.caller = .done := by
      by_contra ne
      exact h.actives ne .reset (List.mem_of_getElem? hat) rfl
    have e := handled_step hstep nofun
    refine ⟨e.caller.trans hdone, ?_⟩
    simp only [step, hat, activeStep, Option.bind_eq_bind, Option.bind_some] at hstep
    cases hstep
    rfl
  | caller | onActive | expire | timeout | post ok | run i => cases hreset

/-! ## The callback -/

theorem others_step {pc : TimerPc} (unstored : Unstored s) (h : s.timer = pc)
    (claiming : pc.claiming = true) {a : Label} (other : Others s a)
    (hstep : step s a = some s') : s'.timer = pc := by
  by_cases hcaller : a = .caller
  · subst hcaller
    obtain ⟨-, rfl⟩ | ⟨hpc, rfl⟩ | ⟨-, rfl⟩ | ⟨-, rfl⟩ := caller_cases hstep
    · exact h
    · rw [← h, unstored.fresh (.inr hpc)] at claiming
      cases claiming
    · exact h
    · exact h
  · rcases (handled_step hstep hcaller).timer with hsame | ⟨harmed, -⟩ | ⟨rfl, -⟩
    · exact hsame.trans h
    · rw [← h, harmed] at claiming
      cases claiming
    · exact absurd rfl other

/-- Once the callback has claimed the connector nobody else moves it. -/
theorem others_timer {pc : TimerPc} (unstored : Unstored s) (h : s.timer = pc)
    (claiming : pc.claiming = true) {u : Sys} (run : Machine.Runs step Others s u) :
    Unstored u ∧ u.timer = pc :=
  run.invariant (I := fun u => Unstored u ∧ u.timer = pc) ⟨unstored, h⟩
    fun _ _ _ _ hu other hstep =>
      ⟨unstored_step hu.1 hstep, others_step hu.1 hu.2 claiming other hstep⟩

/-- The callback claims the connector if and only if it finds its handle. -/
theorem timesOut_iff (unstored : Unstored s) (fires : s.timer = .fired) (free : s.locked = false)
    (unclaimed : s.conn.doing = false) : TimesOut s ↔ s.conn.connectTimer = true := by
  constructor
  · rintro ⟨t, hstep, -, hclaims, -⟩
    by_contra hgone
    simp only [step, fires, timeoutStep, free, hgone, false_and, if_false] at hstep
    cases hstep
    rw [unclaimed] at hclaims
    cases hclaims
  · intro hstored
    have hsection : step s .timeout = some { s with
        locked := true
        conn.connectTimer := false
        conn.doing := true
        timer := .gotError } := by
      simp [step, fires, timeoutStep, free, hstored, unclaimed]
    refine ⟨_, hsection, unclaimed, rfl, fun u hu => ?_⟩
    obtain ⟨hunstored, htimer⟩ :=
      others_timer (unstored_step unstored hsection) rfl rfl hu
    have hflag : step u .timeout = some { u with conn.gotError := true, timer := .err } := by
      simp [step, htimer, timeoutStep]
    refine ⟨_, hflag, rfl, fun w hw => ?_⟩
    obtain ⟨-, htimer'⟩ := others_timer (unstored_step hunstored hflag) rfl rfl hw
    exact ⟨{ w with
        conn.err := ETIMEDOUT
        locked := false
        posting := w.posting + 1
        timer := .finished }, by simp [step, htimer', timeoutStep], rfl, rfl⟩

theorem unstored_start {self : Channel} {k : TCPConnector} (h : k.Connected) (reg : Registry)
    (ok : Bool) (timeout : ℕ) : Unstored (Sys.start self k reg ok timeout) := by
  obtain ⟨fd, connectFn, errorFn, valid, socket, ret, errno, h⟩ := h
  refine ⟨fun _ => rfl, fun _ => ?_, fun _ => nofun⟩
  simp only [connect, new, Bool.false_eq_true, if_false] at h
  split_ifs at h <;> cases h
  rfl

/-- Where the timer fires and nobody has claimed the connector, its callback claims it with
ETIMEDOUT and posts a task if and only if `ConnectWithTimeout` has stored the handle and no
`OnActive` has reset it. -/
theorem timeout_claims_iff {self : Channel} {k : TCPConnector} (connected : k.Connected)
    (reg : Registry) (ok : Bool) (timeout : ℕ) (labels : List Label)
    (run : Machine.exec step (Sys.start self k reg ok timeout) labels = some s)
    (fires : s.timer = .fired) (free : s.locked = false) (unclaimed : s.conn.doing = false) :
    TimesOut s ↔ s.caller = .done ∧
      Machine.tally step resets (Sys.start self k reg ok timeout) labels = 0 := by
  have hstart : Unstored (Sys.start self k reg ok timeout) :=
    unstored_start connected reg ok timeout
  have hunstored {u : Sys} (h : Machine.Reaches step (Sys.start self k reg ok timeout) u) :
      Unstored u := h.invariant hstart fun _ _ _ _ hu _ hstep => unstored_step hu hstep
  have hreach := Machine.Reaches.of_exec labels run
  rw [timesOut_iff (hunstored hreach) fires free unclaimed]
  constructor
  · intro hstored
    have hdone : s.caller = .done := by
      by_contra ne
      rw [(hunstored hreach).handle ne] at hstored
      cases hstored
    refine ⟨hdone, ?_⟩
    by_contra honce
    obtain ⟨u, a, v, hu, hreset, hstep, hv⟩ := Machine.exists_of_tally resets labels run honce
    have hgone := hv.invariant (gone_of_resets (hunstored hu) hstep hreset)
      fun _ _ _ _ h _ hstep => gone_step h hstep
    rw [hgone.handle] at hstored
    cases hstored
  · rintro ⟨hdone, hnever⟩
    have hstored : Unstored s ∧ Stored s :=
      (Machine.Runs.of_tally resets labels run hnever).invariant
        (I := fun u => Unstored u ∧ Stored u) ⟨hstart, nofun⟩ fun _ _ _ _ h keeps hstep =>
          ⟨unstored_step h.1 hstep, stored_step h.1 h.2 hstep keeps⟩
    exact hstored.2 hdone (by rw [fires]; rfl)

def beforeStore : List Label := [.caller, .caller, .expire]

/-- The callback finds no handle; the handle is stored after it, and the connector waits on. -/
theorem timeout_lost : sample.Connected ∧ (∃ s : Sys,
    Machine.exec step (Sys.start 7 sample Registry.empty true 100) beforeStore = some s ∧
    s.timer = .fired ∧ s.locked = false ∧ s.conn.doing = false ∧ ¬ TimesOut s) ∧
    ∃ s : Sys, Machine.exec step (Sys.start 7 sample Registry.empty true 100)
      (beforeStore ++ [.timeout, .caller]) = some s ∧ s.timer = .finished ∧ s.caller = .done ∧
      s.conn.doing = false ∧ s.posting = 0 ∧ s.tasks = [] := by
  have h : (Machine.exec step (Sys.start 7 sample Registry.empty true 100) beforeStore).map
      (fun s => (s.timer, s.locked, s.conn.doing, s.caller)) =
      some (.fired, false, false, .assign) := by decide
  have h' : (Machine.exec step (Sys.start 7 sample Registry.empty true 100)
      (beforeStore ++ [.timeout, .caller])).map
        (fun s => (s.timer, s.caller, s.conn.doing, s.posting, s.tasks)) =
      some (.finished, .done, false, 0, []) := by decide
  obtain ⟨s, hs, hview⟩ := Option.map_eq_some_iff.mp h
  simp only [Prod.mk.injEq] at hview
  obtain ⟨htimer, hfree, hidle, hcaller⟩ := hview
  obtain ⟨t, ht, hview'⟩ := Option.map_eq_some_iff.mp h'
  simp only [Prod.mk.injEq] at hview'
  have hunstored : Unstored s := (Machine.Reaches.of_exec _ hs).invariant
    (unstored_start sample_connected _ _ _) fun _ _ _ _ hu _ hstep => unstored_step hu hstep
  refine ⟨sample_connected, ⟨s, hs, htimer, hfree, hidle, fun htimes => ?_⟩, t, ht, hview'⟩
  have hstored := (timesOut_iff hunstored htimer hfree hidle).mp htimes
  rw [hunstored.handle (by rw [hcaller]; nofun)] at hstored
  cases hstored

/-- The timer fires when the handle has been stored. -/
theorem timeout_claims : ∃ s : Sys,
    Machine.exec step (Sys.start 7 sample Registry.empty true 100)
      [.caller, .caller, .caller, .expire] = some s ∧ TimesOut s := by
  have h : (Machine.exec step (Sys.start 7 sample Registry.empty true 100)
      [.caller, .caller, .caller, .expire]).map
        (fun s => (s.timer, s.locked, s.conn.doing, s.caller)) =
      some (.fired, false, false, .done) := by decide
  obtain ⟨s, hs, hview⟩ := Option.map_eq_some_iff.mp h
  simp only [Prod.mk.injEq] at hview
  obtain ⟨htimer, hfree, hidle, hcaller⟩ := hview
  exact ⟨s, hs, (timeout_claims_iff sample_connected _ _ _ _ hs htimer hfree hidle).mpr
    ⟨hcaller, by decide⟩⟩

end Hwnet.TCPConnector
