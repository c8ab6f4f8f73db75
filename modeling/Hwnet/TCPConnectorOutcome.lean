import Hwnet.TCPConnector

set_option autoImplicit false

/-!
# One outcome

`doing` is set once, by the thread that posts, so there is one task at most and it goes once
through the section in which the descriptor is closed or taken.
-/
namespace Hwnet.TCPConnector

open Poller (Channel Fd Registry)

structure Single (fd : Fd) (s : Sys) : Prop where
  claimed : s.pending + s.log.countP Event.isPosted = s.conn.doing.toNat
  posted : s.tasks.length ≤ s.log.countP Event.isPosted
  disposed : s.log.countP Event.isDisposal = s.tasks.countP DoPc.disposed
  called : s.log.countP Event.isCallback ≤ s.tasks.countP DoPc.isDone
  callback : s.conn.connectCallback ≠ none
  kept : s.conn.fd = fd ∨ ∃ pc ∈ s.tasks, pc.past = true
  handed : ∀ (cb : Callback) (fd' : Fd), .connectCallback cb fd' ∈ s.tasks → fd' = fd
  own : ∀ e ∈ s.log, ∀ fd' : Fd, e.disposes = some fd' → fd' = fd
  fresh : Fresh s

theorem connected_spec {k : TCPConnector} (h : k.Connected) :
    k.connectCallback ≠ none ∧ k.doing = false := by
  obtain ⟨fd, connectFn, errorFn, valid, socket, ret, errno, h⟩ := h
  simp only [connect, new, Bool.false_eq_true, if_false] at h
  split_ifs at h with hnone <;> cases h
  exact ⟨fun h => hnone (Option.isNone_iff_eq_none.mpr h), rfl⟩

theorem single_start {self : Channel} {k : TCPConnector} (h : k.Connected) (reg : Registry)
    (ok : Bool) (timeout : ℕ) : Single k.fd (Sys.start self k reg ok timeout) := by
  obtain ⟨hcallback, hidle⟩ := connected_spec h
  refine ⟨?_, Nat.le_refl 0, rfl, Nat.le_refl 0, hcallback, .inl rfl, nofun, nofun, fun _ => rfl⟩
  show 0 = k.doing.toNat
  rw [hidle]
  rfl

variable {fd : Fd} {s s' : Sys}

theorem Single.posts_le (h : Single fd s) : s.log.countP Event.isPosted ≤ 1 := by
  have := h.claimed
  have := Bool.toNat_le s.conn.doing
  omega

theorem Single.sole (h : Single fd s) {i : ℕ} {pc : DoPc} (at_ : s.tasks[i]? = some pc) :
    i = 0 ∧ s.tasks = [pc] :=
  Machine.sole_of_length_le_one (Nat.le_trans h.posted h.posts_le) at_

theorem Single.moved (h : Single fd s) (e : Effect s s') : Single fd s' := by
  have hcounts : s'.log.countP Event.isPosted = s.log.countP Event.isPosted ∧
      s'.log.countP Event.isDisposal = s.log.countP Event.isDisposal ∧
      s'.log.countP Event.isCallback = s.log.countP Event.isCallback ∧
      ∀ x ∈ s'.log, x ∈ s.log ∨ x = .removed s.conn.fd := by
    rcases e.removed with ⟨hlog, -⟩ | ⟨hlog, -⟩ <;> rw [hlog]
    · exact ⟨rfl, rfl, rfl, fun _ => .inl⟩
    · refine ⟨?_, ?_, ?_, fun x hx => ?_⟩
      · simp [Event.isPosted]
      · simp [Event.isDisposal, Event.disposes]
      · simp [Event.isCallback]
      · simpa using hx
  obtain ⟨hposted, hdisposal, hcallback, hmem⟩ := hcounts
  have hclaimed := h.claimed
  have heffect := e.claimed
  refine ⟨by omega, ?_, ?_, ?_, ?_, ?_, ?_, fun x hx fd' hfd => ?_, e.fresh h.fresh⟩
  · rw [e.tasks, hposted]
    exact h.posted
  · rw [e.tasks, hdisposal]
    exact h.disposed
  · rw [e.tasks, hcallback]
    exact h.called
  · rw [e.callback]
    exact h.callback
  · rw [e.fd, e.tasks]
    exact h.kept
  · rw [e.tasks]
    exact h.handed
  · rcases hmem x hx with hold | rfl
    · exact h.own x hold fd' hfd
    · cases hfd

theorem single_post (h : Single fd s) {ok : Bool} (hstep : step s (.post ok) = some s') :
    Single fd s' := by
  have hpending : 0 < s.posting := by
    by_contra hnone
    simp [step, hnone] at hstep
  simp only [step, if_pos hpending, Option.some.injEq] at hstep
  subst hstep
  have hclaimed := h.claimed
  have hposted := h.posted
  have hnew (p : DoPc → Bool) (unmet : p .queued = false) :
      (if ok then s.tasks ++ [.queued] else s.tasks).countP p = s.tasks.countP p := by
    split <;> simp [unmet]
  have hmem (pc : DoPc) : pc ∈ (if ok then s.tasks ++ [.queued] else s.tasks) ↔
      pc ∈ s.tasks ∨ ok = true ∧ pc = .queued := by
    cases ok <;> simp
  refine ⟨?_, ?_, ?_, ?_, h.callback, ?_, ?_, ?_, h.fresh⟩
  · simp only [Sys.pending, List.countP_append] at hclaimed ⊢
    have hone : [Event.posted].countP Event.isPosted = 1 := rfl
    omega
  · have hlen : (if ok then s.tasks ++ [.queued] else s.tasks).length ≤ s.tasks.length + 1 := by
      split <;> simp
    simp only [List.countP_append]
    exact Nat.le_trans hlen (Nat.add_le_add_right hposted 1)
  · rw [hnew _ rfl]
    simpa [Event.isDisposal, Event.disposes] using h.disposed
  · rw [hnew _ rfl]
    simpa [Event.isCallback] using h.called
  · refine h.kept.imp_right fun hkept => ?_
    obtain ⟨pc, hpc, hpast⟩ := hkept
    exact ⟨pc, (hmem pc).mpr (.inl hpc), hpast⟩
  · intro cb fd' hcb
    rcases (hmem _).mp hcb with hold | ⟨-, hne⟩
    · exact h.handed cb fd' hold
    · cases hne
  · intro e he fd' hdisposes
    rcases List.mem_append.mp he with hold | hone
    · exact h.own e hold fd' hdisposes
    · rw [List.mem_singleton.mp hone] at hdisposes
      cases hdisposes

/-- What a task is about to dispose of is the descriptor that `Connect` opened. -/
theorem Single.disposed_own (h : Single fd s) {i : ℕ} {pc : DoPc} (at_ : s.tasks[i]? = some pc)
    {fd' : Fd} (disposes : pc.disposes s.conn = some fd') : fd' = fd := by
  obtain ⟨-, htasks⟩ := h.sole at_
  cases pc with
  | close =>
    cases disposes
    simpa [htasks, DoPc.past] using h.kept
  | connectCallback cb fd₀ =>
    cases disposes
    exact h.handed cb fd' (List.mem_of_getElem? at_)
  | _ => cases disposes

theorem single_do (h : Single fd s) {i : ℕ} {pc pc' : DoPc} (at_ : s.tasks[i]? = some pc)
    (hstep : doStep s pc = some (s', pc')) :
    Single fd { s' with tasks := s'.tasks.set i pc' } := by
  obtain ⟨rfl, htasks⟩ := h.sole at_
  obtain ⟨es, e⟩ := do_effect hstep h.callback
  have hset : s'.tasks.set 0 pc' = [pc'] := by rw [e.tasks, htasks]; rfl
  have hunpast (unpast : pc.past = false) : s.conn.fd = fd := by
    simpa [htasks, unpast] using h.kept
  have hclaimed := h.claimed
  have hposted := h.posted
  have hdisposed := h.disposed
  have hcalled := h.called
  have hcount (p : Event → Bool) : s'.log.countP p = s.log.countP p + es.countP p := by
    rw [e.log, List.countP_append]
  have hquiet := e.unposted
  have hdisposes := e.disposed
  have hcalls := e.called
  have hone (p : DoPc → Bool) (x : DoPc) : [x].countP p = (p x).toNat := by
    cases hx : p x <;> simp [hx]
  simp only [htasks, hone, List.length_singleton] at hposted hdisposed hcalled
  refine ⟨?_, ?_, ?_, ?_, ?_, ?_, ?_, ?_, e.fresh h.fresh⟩
  · show s'.pending + s'.log.countP Event.isPosted = s'.conn.doing.toNat
    rw [hcount, e.pending, e.doing]
    omega
  · show (s'.tasks.set 0 pc').length ≤ s'.log.countP Event.isPosted
    rw [hset, hcount]
    simp only [List.length_singleton]
    omega
  · show s'.log.countP Event.isDisposal = (s'.tasks.set 0 pc').countP DoPc.disposed
    rw [hset, hcount, hone]
    omega
  · show s'.log.countP Event.isCallback ≤ (s'.tasks.set 0 pc').countP DoPc.isDone
    rw [hset, hcount, hone]
    omega
  · show s'.conn.connectCallback ≠ none
    rw [e.callback]
    exact h.callback
  · show s'.conn.fd = fd ∨ ∃ q ∈ s'.tasks.set 0 pc', q.past = true
    rw [hset]
    rcases e.kept with hpast | ⟨hunpast', hsame⟩
    · exact .inr ⟨pc', List.mem_singleton_self pc', hpast⟩
    · exact .inl (hsame.trans (hunpast hunpast'))
  · intro cb fd' hmem
    simp only [hset] at hmem
    obtain ⟨hunpast', rfl⟩ := e.handed cb fd' (List.mem_singleton.mp hmem).symm
    exact hunpast hunpast'
  · intro x hx fd' hfd
    simp only [e.log] at hx
    rcases List.mem_append.mp hx with hold | hnew
    · exact h.own x hold fd' hfd
    · exact h.disposed_own at_ (e.own x hnew fd' hfd).1

theorem single_step (h : Single fd s) {a : Label} (hstep : step s a = some s') :
    Single fd s' := by
  have hmoved := effect_step h.fresh hstep
  cases a with
  | caller | onActive | active i answer | expire | timeout => exact h.moved (hmoved nofun nofun)
  | post ok => exact single_post h hstep
  | run i =>
    simp only [step, Option.bind_eq_bind, Option.bind_eq_some_iff] at hstep
    obtain ⟨pc, at_, ⟨t, pc'⟩, hdo, hr⟩ := hstep
    cases hr
    exact single_do h at_ hdo

theorem single_reachable {self : Channel} {k : TCPConnector} (connected : k.Connected)
    {reg : Registry} {ok : Bool} {timeout : ℕ}
    (h : Reachable (Sys.start self k reg ok timeout) s) : Single k.fd s :=
  h.invariant (single_start connected reg ok timeout) fun _ _ _ _ hu _ hstep =>
    single_step hu hstep

/-- `Do` is posted once at most, one callback at most is called, and the descriptor `Connect` opened
is closed or handed over once at most, and exactly once when `Do` is over. -/
theorem one_outcome {self : Channel} {k : TCPConnector} (connected : k.Connected)
    {reg : Registry} {ok : Bool} {timeout : ℕ} {s : Sys}
    (h : Reachable (Sys.start self k reg ok timeout) s) :
    s.log.countP Event.isPosted ≤ 1 ∧ s.log.countP Event.isCallback ≤ 1 ∧
    s.log.countP Event.isDisposal ≤ 1 ∧
    (∀ e ∈ s.log, ∀ fd : Fd, e.disposes = some fd → fd = k.fd) ∧
    (.done ∈ s.tasks → s.log.countP Event.isDisposal = 1) := by
  have inv := single_reachable connected h
  have hlen : s.tasks.length ≤ 1 := Nat.le_trans inv.posted inv.posts_le
  have hdisposed := inv.disposed
  refine ⟨inv.posts_le, ?_, ?_, inv.own, fun hdone => ?_⟩
  · exact Nat.le_trans inv.called (Nat.le_trans List.countP_le_length hlen)
  · rw [hdisposed]
    exact Nat.le_trans List.countP_le_length hlen
  · have hpos : 0 < s.tasks.countP DoPc.disposed := List.countP_pos_iff.mpr ⟨_, hdone, rfl⟩
    have hle : s.tasks.countP DoPc.disposed ≤ s.tasks.length := List.countP_le_length
    omega

def sample : TCPConnector := ⟨5, some 1, some 2, true, false, false, false, 0⟩

theorem sample_connected : sample.Connected :=
  ⟨-1, some 1, some 2, true, 5, -1, EINPROGRESS, rfl⟩

def lateTimeout : List Label :=
  [.caller, .caller, .caller, .onActive, .active 0 (.value 0), .active 0 (.value 0),
    .active 0 (.value 0), .active 0 (.value 0), .active 0 (.value 0), .expire, .timeout, .timeout,
    .timeout, .active 0 (.value 0), .active 0 (.value 0), .post true, .run 0, .run 0, .run 0,
    .onActive, .active 1 (.value 0), .active 1 (.value 0), .active 1 (.value 0),
    .active 1 (.value 0), .active 1 (.value 0), .active 1 (.value 0)]

theorem one_outcome_late : ∃ s : Sys,
    Machine.exec step (Sys.start 7 sample Registry.empty true 100) lateTimeout = some s ∧
    s.log = [.removed 5, .posted, .closed 5 none, .errorCallback 2 ETIMEDOUT, .removed 5] ∧
    s.log.countP Event.isDisposal = 1 := by
  have h : (Machine.exec step (Sys.start 7 sample Registry.empty true 100) lateTimeout).map
      (fun s => (s.log, s.tasks)) =
      some ([.removed 5, .posted, .closed 5 none, .errorCallback 2 ETIMEDOUT, .removed 5],
        [.done]) := by decide
  obtain ⟨s, hs, hview⟩ := Option.map_eq_some_iff.mp h
  simp only [Prod.mk.injEq] at hview
  refine ⟨s, hs, hview.1, ?_⟩
  refine (one_outcome sample_connected (Machine.Reaches.of_exec _ hs)).2.2.2.2 ?_
  rw [hview.2]
  exact List.mem_singleton_self _

end Hwnet.TCPConnector
