import Hwnet.TimerThreadSteps

set_option autoImplicit false

/-!
# Cancelling a timer

The life of one timer is told by its status, by how many threads have it in hand, and by the log. It
is followed through every interleaving of `Schedule` and `cancel`.
-/
namespace Hwnet.TimerMgr

open Timer

/-! ## What is counted -/

def Event.claims (t : Ptr) : Event → Bool
  | .claimed _ u => u = t
  | _ => false

def Event.returns (p : CancelResult → Bool) (t : Ptr) : Event → Bool
  | .returned _ u r => u = t && p r
  | _ => false

def CancelResult.isOk : CancelResult → Bool
  | .cancelOk => true
  | _ => false

def CancelResult.isSuccess : CancelResult → Bool
  | .invaildTimer => false
  | _ => true

/-- The timer whose callback the thread executes, from the claim until the callback returns. -/
def SchedulePc.executing : SchedulePc → Option Ptr
  | .pop _ t true | .call _ t | .running _ t => some t
  | _ => none

def Sys.executing (s : Sys) (t : Ptr) : ℕ :=
  s.threads.countP fun th => th.schedule.executing = some t

def Sys.owners (s : Sys) (t : Ptr) : ℕ := s.threads.countP fun th => th.schedule.owns = some t

def Sys.winners (s : Sys) (t : Ptr) : ℕ := s.threads.countP fun th => th.cancel.won = some t

def Sys.joiners (s : Sys) (t : Ptr) : ℕ := s.threads.countP fun th => th.cancel.joined = some t

def oks (log : List Event) (t : Ptr) : ℕ := log.countP (Event.returns CancelResult.isOk t)

/-! ## The life of a timer -/

def Dead (x : UInt32) : Prop := x = canceled ∨ x = incallback ||| canceled

/-- A timer of status `x` with so many threads that own it, have won it and have joined its
callback; the results that `p` accepts are final. -/
structure Life (p : CancelResult → Bool) (t : Ptr) (x : UInt32) (owners winners joiners : ℕ)
    (log : List Event) : Prop where
  word : x = 0 ∨ x = incallback ∨ Dead x
  owner : owners ≤ 1
  owned : 0 < owners → x = incallback ∨ x = incallback ||| canceled
  winner : winners + oks log t ≤ 1
  won : 0 < winners + oks log t → x = canceled
  joined : 0 < joiners → x = incallback ||| canceled
  settled : ∀ e ∈ log, e.returns p t = true → Dead x
  final : log.Pairwise fun e f => e.returns p t = true → f.claims t = false

section Life

variable {p : CancelResult → Bool} {t : Ptr} {x : UInt32} {o w j : ℕ} {log : List Event}

theorem not_dead_zero : ¬ Dead 0 := by unfold Dead; decide

theorem not_dead_incallback : ¬ Dead incallback := by unfold Dead; decide

theorem Life.fewer (h : Life p t x o w j log) {o' w' j' : ℕ} (owners : o' ≤ o) (winners : w' ≤ w)
    (joiners : j' ≤ j) : Life p t x o' w' j' log where
  word := h.word
  owner := owners.trans h.owner
  owned := fun pos => h.owned (by omega)
  winner := by have := h.winner; omega
  won := fun pos => h.won (by omega)
  joined := fun pos => h.joined (by omega)
  settled := h.settled
  final := h.final

/-- Nothing is claimed once a final result is in the log. -/
theorem Life.final_append (h : Life p t x o w j log) {e : Event}
    (claims : e.claims t = true → ¬ Dead x) :
    (log ++ [e]).Pairwise fun e f => e.returns p t = true → f.claims t = false := by
  refine List.pairwise_append.mpr ⟨h.final, List.pairwise_singleton _ _, fun f hf g hg hret => ?_⟩
  rw [List.mem_singleton.mp hg]
  cases hclaims : e.claims t with
  | false => rfl
  | true => exact absurd (h.settled f hf hret) (claims hclaims)

theorem Life.settled_append (h : Life p t x o w j log) {e : Event}
    (returns : e.returns p t = true → Dead x) :
    ∀ f ∈ log ++ [e], f.returns p t = true → Dead x := by
  intro f hf hret
  rcases List.mem_append.mp hf with hf | hf
  · exact h.settled f hf hret
  · exact returns (List.mem_singleton.mp hf ▸ hret)

theorem Life.note (h : Life p t x o w j log) {e : Event} (claims : e.claims t = false)
    (ok : e.returns CancelResult.isOk t = false) (returns : e.returns p t = true → Dead x) :
    Life p t x o w j (log ++ [e]) := by
  have hoks : oks (log ++ [e]) t = oks log t := by simp [oks, ok]
  refine ⟨h.word, h.owner, h.owned, ?_, ?_, h.joined, h.settled_append returns,
    h.final_append ?_⟩
  · rw [hoks]
    exact h.winner
  · rw [hoks]
    exact h.won
  · rw [claims]
    exact nofun

/-- With the status 0 nobody has the timer in hand and no final result has been returned. -/
theorem Life.idle (h : Life p t 0 o w j log) : o = 0 ∧ w + oks log t = 0 ∧ j = 0 := by
  refine ⟨?_, ?_, ?_⟩
  · by_contra hne
    exact absurd (h.owned (by omega)) (by decide)
  · by_contra hne
    exact absurd (h.won (by omega)) (by decide)
  · by_contra hne
    exact absurd (h.joined (by omega)) (by decide)

/-- With the status `incallback` no `cancel` has taken effect. -/
theorem Life.busy (h : Life p t incallback o w j log) : w + oks log t = 0 ∧ j = 0 := by
  refine ⟨?_, ?_⟩
  · by_contra hne
    exact absurd (h.won (by omega)) (by decide)
  · by_contra hne
    exact absurd (h.joined (by omega)) (by decide)

theorem Life.claim (h : Life p t 0 o w j log) (i : ThreadId) :
    Life p t incallback (o + 1) w j (log ++ [.claimed i t]) := by
  obtain ⟨ho, hw, hj⟩ := h.idle
  have hoks : oks (log ++ [.claimed i t]) t = oks log t := by simp [oks, Event.returns]
  refine ⟨.inr (.inl rfl), by omega, fun _ => .inl rfl, by omega, fun _ => by omega,
    fun _ => by omega, fun e he hret => ?_, h.final_append fun _ => not_dead_zero⟩
  rcases List.mem_append.mp he with he | he
  · exact absurd (h.settled e he hret) not_dead_zero
  · rw [List.mem_singleton.mp he] at hret
    cases hret

theorem Life.rearm (h : Life p t incallback (o + 1) w j log) : Life p t 0 o w j log := by
  obtain ⟨hw, hj⟩ := h.busy
  have howner := h.owner
  exact ⟨.inl rfl, by omega, fun _ => by omega, by omega, fun _ => by omega, fun _ => by omega,
    fun e he hret => absurd (h.settled e he hret) not_dead_incallback, h.final⟩

theorem Life.win (h : Life p t 0 o w j log) : Life p t canceled o (w + 1) j log := by
  obtain ⟨ho, hw, hj⟩ := h.idle
  exact ⟨.inr (.inr (.inl rfl)), h.owner, fun _ => by omega, by omega, fun _ => rfl,
    fun _ => by omega, fun _ _ _ => .inl rfl, h.final⟩

theorem Life.join (h : Life p t incallback o w j log) :
    Life p t (incallback ||| canceled) o w (j + 1) log := by
  obtain ⟨hw, hj⟩ := h.busy
  exact ⟨.inr (.inr (.inr rfl)), h.owner, fun _ => .inr rfl, by omega, fun _ => by omega,
    fun _ => rfl, fun _ _ _ => .inr rfl, h.final⟩

theorem Life.doing (h : Life p t x o w (j + 1) log) (i : ThreadId) {r : CancelResult}
    (other : r ≠ .cancelOk) : Life p t x o w j (log ++ [.returned i t r]) := by
  have hdead : Dead x := .inr (h.joined (Nat.succ_pos j))
  have hok : Event.returns CancelResult.isOk t (.returned i t r) = false := by
    cases r with
    | cancelOk => exact absurd rfl other
    | _ => simp [Event.returns, CancelResult.isOk]
  exact (h.fewer (le_refl o) (le_refl w) (Nat.le_succ j)).note rfl hok fun _ => hdead

/-- A `cancel` that has won returns `cancel_ok`. -/
theorem Life.removed (h : Life p t x o (w + 1) j log) (i : ThreadId) :
    Life p t x o w j (log ++ [.returned i t .cancelOk]) := by
  have hdead : Dead x := .inl (h.won (by omega))
  have hwinner := h.winner
  have hoks : oks (log ++ [.returned i t .cancelOk]) t = oks log t + 1 := by
    simp [oks, Event.returns, CancelResult.isOk]
  exact ⟨h.word, h.owner, h.owned, by omega, fun _ => h.won (by omega), h.joined,
    h.settled_append fun _ => hdead, h.final_append nofun⟩

end Life

/-! ## The life of a timer among the threads -/

def Sys.Lives (p : CancelResult → Bool) (t : Ptr) (s : Sys) : Prop :=
  Life p t (s.mgr.status t) (s.owners t) (s.winners t) (s.joiners t) s.log

def lostCancel (s : Sys) : Label → Bool
  | .advance i =>
    match s.threads[i]? with
    | some ⟨_, .cas2 t⟩ => s.mgr.status t = 0
    | _ => false
  | _ => false

section Step

variable {p : CancelResult → Bool} {s w : Sys} {i : ThreadId} {th th' : Thread} {t u : Ptr}

/-- The counts of a timer after a turn, from what the thread has in hand before and after it. -/
theorem lives_of (at_ : s.threads[i]? = some th) (threads : w.threads = s.threads) {x : UInt32}
    {o n j : ℕ} {log : List Event} (life : Life p t x o n j log) (status : w.mgr.status t = x)
    (events : w.log = log)
    (owners : s.owners t + (decide (th'.schedule.owns = some t)).toNat ≤
      o + (decide (th.schedule.owns = some t)).toNat)
    (winners : s.winners t + (decide (th'.cancel.won = some t)).toNat ≤
      n + (decide (th.cancel.won = some t)).toNat)
    (joiners : s.joiners t + (decide (th'.cancel.joined = some t)).toNat ≤
      j + (decide (th.cancel.joined = some t)).toNat) :
    (Sys.resume i (w, th')).Lives p t := by
  have hset (q : Thread → Bool) := Machine.countP_set_add q at_ th'
  have ho := hset fun th => decide (th.schedule.owns = some t)
  have hw := hset fun th => decide (th.cancel.won = some t)
  have hj := hset fun th => decide (th.cancel.joined = some t)
  show Life p t (w.mgr.status t) _ _ _ w.log
  rw [status, events]
  simp only [Sys.owners, Sys.winners, Sys.joiners] at owners winners joiners
  apply life.fewer
  · simp only [Sys.owners, Sys.resume, threads]
    omega
  · simp only [Sys.winners, Sys.resume, threads]
    omega
  · simp only [Sys.joiners, Sys.resume, threads]
    omega

theorem toNat_le {a b : Prop} [Decidable a] [Decidable b] (h : a → b) :
    (decide a).toNat ≤ (decide b).toNat := by
  by_cases ha : a <;> simp [ha, h]

theorem lives_frame (at_ : s.threads[i]? = some th) (threads : w.threads = s.threads)
    (status : w.mgr.status t = s.mgr.status t)
    (owns : th'.schedule.owns = some t → th.schedule.owns = some t)
    (won : th'.cancel.won = some t → th.cancel.won = some t)
    (joined : th'.cancel.joined = some t → th.cancel.joined = some t)
    (life : Life p t (s.mgr.status t) (s.owners t) (s.winners t) (s.joiners t) w.log) :
    (Sys.resume i (w, th')).Lives p t :=
  lives_of at_ threads life status rfl (Nat.add_le_add_left (toNat_le owns) _)
    (Nat.add_le_add_left (toNat_le won) _) (Nat.add_le_add_left (toNat_le joined) _)

theorem Life.other {x : UInt32} {o n j : ℕ} {log : List Event} (h : Life p t x o n j log)
    (ne : u ≠ t) : (∀ i, Life p t x o n j (log ++ [.claimed i u])) ∧
      ∀ i r, Life p t x o n j (log ++ [.returned i u r]) := by
  refine ⟨fun i => h.note ?_ rfl nofun, fun i r => h.note rfl ?_ ?_⟩
  · simp [Event.claims, ne]
  · simp [Event.returns, ne]
  · simp [Event.returns, ne]

theorem owners_pos (at_ : s.threads[i]? = some th) (owns : th.schedule.owns = some t) :
    0 < s.owners t :=
  Machine.countP_pos_of_getElem? _ at_ (decide_eq_true owns)

theorem winners_pos (at_ : s.threads[i]? = some th) (won : th.cancel.won = some t) :
    0 < s.winners t :=
  Machine.countP_pos_of_getElem? _ at_ (decide_eq_true won)

theorem joiners_pos (at_ : s.threads[i]? = some th) (joined : th.cancel.joined = some t) :
    0 < s.joiners t :=
  Machine.countP_pos_of_getElem? _ at_ (decide_eq_true joined)

theorem lives_moved (h : s.Lives p t) (at_ : s.threads[i]? = some th)
    (threads : w.threads = s.threads) (move : Moved s i th w th')
    (kept : p .invaildTimer = true → lostCancel s (.advance i) = false) :
    (Sys.resume i (w, th')).Lives p t := by
  have hnow (u : Ptr) (hut : u = t) :
      Life p u (s.mgr.status u) (s.owners u) (s.winners u) (s.joiners u) s.log := hut ▸ h
  have hquiet (hw : w.log = s.log ++ []) :
      Life p t (s.mgr.status t) (s.owners t) (s.winners t) (s.joiners t) w.log := by
    rw [hw, List.append_nil]
    exact h
  cases move with
  | quiet writes pcs =>
    exact lives_frame at_ threads (by rw [writes.status]) (pcs.owns t) pcs.won pcs.joined
      (hquiet writes.log)
  | @claim now u _ zero writes =>
    by_cases hut : u = t
    · have hlife := hnow u hut
      rw [zero] at hlife
      subst hut
      exact lives_of at_ threads (hlife.claim i) (by simp [writes.status]) writes.log
        (by simp [SchedulePc.owns]) (by simp) (by simp)
    · refine lives_frame at_ threads (by simp [writes.status, Ne.symm hut]) ?_ id id ?_
      · simp [SchedulePc.owns, hut]
      · exact writes.log ▸ (h.other hut).1 i
  | refuse nonzero writes =>
    exact lives_frame at_ threads (by rw [writes.status]) nofun id id (hquiet writes.log)
  | @pop now u ok _ writes =>
    refine lives_frame at_ threads (by rw [writes.status]) ?_ id id (hquiet writes.log)
    cases ok <;> exact id
  | @rearm now u _ busy writes =>
    by_cases hut : u = t
    · obtain ⟨o, ho⟩ := Nat.exists_eq_succ_of_ne_zero (owners_pos at_ rfl).ne'
      have hlife := hnow u hut
      rw [busy, ho] at hlife
      subst hut
      exact lives_of at_ threads hlife.rearm (by simp [writes.status])
        (by rw [writes.log, List.append_nil]) (by simp [SchedulePc.owns, ho]) (by simp) (by simp)
    · exact lives_frame at_ threads (by simp [writes.status, Ne.symm hut]) nofun id id
        (hquiet writes.log)
  | insert writes =>
    exact lives_frame at_ threads (by rw [writes.status]) nofun id id (hquiet writes.log)
  | @win u q _ zero writes =>
    by_cases hut : u = t
    · have hlife := hnow u hut
      rw [zero] at hlife
      subst hut
      exact lives_of at_ threads hlife.win (by simp [writes.status])
        (by rw [writes.log, List.append_nil]) (by simp) (by simp [CancelPc.won])
        (by simp [CancelPc.joined])
    · refine lives_frame at_ threads (by simp [writes.status, Ne.symm hut]) id ?_ nofun
        (hquiet writes.log)
      simp [CancelPc.won, hut]
  | @join u q _ busy writes =>
    by_cases hut : u = t
    · have hlife := hnow u hut
      rw [busy] at hlife
      subst hut
      exact lives_of at_ threads hlife.join (by simp [writes.status])
        (by rw [writes.log, List.append_nil]) (by simp) (by simp [CancelPc.won])
        (by simp [CancelPc.joined])
    · refine lives_frame at_ threads (by simp [writes.status, Ne.symm hut]) id nofun ?_
        (hquiet writes.log)
      simp [CancelPc.joined, hut]
  | @fail u q _ idle writes =>
    refine lives_frame at_ threads (by rw [writes.status]) id nofun nofun ?_
    rw [writes.log]
    by_cases hut : u = t
    · subst hut
      refine h.note rfl (by simp [Event.returns, CancelResult.isOk]) fun hret => ?_
      -- only a status reset between the two exchanges makes both of them fail for nothing
      have hlost := kept (by simpa [Event.returns] using hret)
      have hnonzero : s.mgr.status u ≠ 0 := by simpa [lostCancel, at_] using hlost
      exact (h.word.resolve_left hnonzero).resolve_left idle
    · exact (h.other hut).2 i _
  | @load u first q _ writes =>
    by_cases hut : u = t
    · subst hut
      cases first with
      | true =>
        have hx : s.mgr.status u = canceled :=
          h.won (by have := winners_pos (t := u) at_ rfl; omega)
        refine lives_frame at_ threads (by rw [writes.status]) id ?_ ?_ (hquiet writes.log)
        · exact fun _ => rfl
        · rw [hx]
          exact nofun
      | false =>
        have hx : s.mgr.status u = incallback ||| canceled :=
          h.joined (joiners_pos (t := u) at_ rfl)
        refine lives_frame at_ threads (by rw [writes.status]) id ?_ ?_ (hquiet writes.log)
        · rw [hx]
          exact nofun
        · exact fun _ => rfl
    · refine lives_frame at_ threads (by rw [writes.status]) id ?_ ?_ (hquiet writes.log)
      · split <;> simp [CancelPc.won, hut]
      · split <;> simp [CancelPc.joined, hut]
  | @doing u q _ r valid other writes =>
    by_cases hut : u = t
    · obtain ⟨j, hj⟩ := Nat.exists_eq_succ_of_ne_zero (joiners_pos (t := u) at_ rfl).ne'
      have hlife := hnow u hut
      rw [hj] at hlife
      subst hut
      exact lives_of at_ threads (hlife.doing i other) (by rw [writes.status]) writes.log (by simp)
        (by simp [CancelPc.won]) (by simp [CancelPc.joined, hj])
    · exact lives_frame at_ threads (by rw [writes.status]) id nofun nofun
        (writes.log ▸ (h.other hut).2 i r)
  | through m owner writes =>
    exact lives_frame at_ threads (by rw [writes.status]) id id nofun (hquiet writes.log)
  | crash owner writes =>
    exact lives_frame at_ threads (by rw [writes.status]) id nofun nofun (hquiet writes.log)
  | @removed u m q _ writes =>
    by_cases hut : u = t
    · obtain ⟨n, hn⟩ := Nat.exists_eq_succ_of_ne_zero (winners_pos (t := u) at_ rfl).ne'
      have hlife := hnow u hut
      rw [hn] at hlife
      subst hut
      exact lives_of at_ threads (hlife.removed i) (by rw [writes.status]) writes.log (by simp)
        (by simp [CancelPc.won, hn]) (by simp [CancelPc.joined])
    · exact lives_frame at_ threads (by rw [writes.status]) id nofun nofun
        (writes.log ▸ (h.other hut).2 i _)

theorem lives_step {s' : Sys} {a : Label} (h : s.Lives p t) (hs : Stepped s a s')
    (kept : p .invaildTimer = true → lostCancel s a = false) : s'.Lives p t := by
  cases hs with
  | added new handles threads writes =>
    show Life p t _ _ _ _ _
    rw [writes.status, writes.log, List.append_nil]
    simp only [Sys.owners, Sys.winners, Sys.joiners, threads]
    exact h
  | called at_ pcs =>
    exact lives_frame at_ rfl rfl (pcs.owns t) pcs.won pcs.joined h
  | moved at_ threads handles move => exact lives_moved h at_ threads move kept

end Step

theorem Sys.Lives.init (self : MgrPtr) (policy : Policy) (n : ℕ) (p : CancelResult → Bool)
    (t : Ptr) : (Sys.init self policy n).Lives p t := by
  have hnone (q : Thread → Bool) (hq : q ⟨.idle, .idle⟩ = false) :
      (Sys.init self policy n).threads.countP q = 0 := by
    simp [Sys.init, List.countP_replicate, hq]
  have howners : (Sys.init self policy n).owners t = 0 := hnone _ rfl
  have hwinners : (Sys.init self policy n).winners t = 0 := hnone _ rfl
  have hjoiners : (Sys.init self policy n).joiners t = 0 := hnone _ rfl
  show Life p t 0 _ _ _ []
  rw [howners, hwinners, hjoiners]
  exact ⟨.inl rfl, by omega, fun _ => by omega, by simp [oks], by simp [oks], fun _ => by omega,
    nofun, .nil⟩

/-- `kept`: where `invaild_timer` is to be final too, no step may lose a cancel. -/
theorem lives_runs {self : MgrPtr} {policy : Policy} {n : ℕ} {s : Sys} {ok : Sys → Label → Prop}
    (h : Machine.Runs step ok (Sys.init self policy n) s) (p : CancelResult → Bool) (t : Ptr)
    (kept : p .invaildTimer = true → ∀ u a, ok u a → lostCancel u a = false) : s.Lives p t := by
  refine h.invariant (I := Sys.Lives p t) (.init self policy n p t) ?_
  intro u v a run hu meets hstep
  exact lives_step hu (step_stepped (sound_runs run) hstep).2 fun hp => kept hp u a meets

theorem lives_ok {self : MgrPtr} {policy : Policy} {n : ℕ} {s : Sys} {ok : Sys → Label → Prop}
    (h : Machine.Runs step ok (Sys.init self policy n) s) (t : Ptr) :
    s.Lives CancelResult.isOk t :=
  lives_runs h _ t fun invalid => by cases invalid

theorem executing_le_owners (s : Sys) (t : Ptr) : s.executing t ≤ s.owners t := by
  refine List.countP_mono_left fun th _ hexec => ?_
  have hexec := of_decide_eq_true hexec
  apply decide_eq_true
  cases hp : th.schedule with
  | pop now u ok =>
    rw [hp] at hexec
    cases ok with
    | true => exact hexec
    | false => cases hexec
  | call now u | running now u =>
    rw [hp] at hexec
    exact hexec
  | _ =>
    rw [hp] at hexec
    cases hexec

/-! ## A successful cancel is final -/

theorem cancel_final {self : MgrPtr} {policy : Policy} {n : ℕ} {s : Sys}
    (h : Reachable self policy n s) (t : Ptr) :
    s.executing t ≤ 1 ∧
    (s.log.Pairwise fun e f =>
      e.returns CancelResult.isSuccess t = true → f.claims t = false) ∧
    oks s.log t ≤ 1 := by
  have life : s.Lives CancelResult.isSuccess t := lives_runs h _ t nofun
  refine ⟨?_, life.final, ?_⟩
  · exact (executing_le_owners s t).trans life.owner
  · exact (Nat.le_add_left _ _).trans life.winner

def finalRun : List Label :=
  [.addTimer 0 0 5 false 7, .addTimer 1 0 9 true 8, .schedule 0 5, .advance 0, .advance 0,
    .advance 0, .advance 0, .advance 0, .cancel 1 0, .advance 1, .advance 1, .advance 1, .advance 1,
    .cancel 1 1, .advance 1, .advance 1, .advance 1, .advance 1, .cancel 2 1, .advance 2,
    .advance 2]

theorem cancel_final_run : ∃ s : Sys, Machine.exec step (Sys.init 1 .normal 3) finalRun = some s ∧
    s.log = [.claimed 0 0, .returned 1 0 .doingCallbackInOtherThread, .returned 1 1 .cancelOk,
      .returned 2 1 .invaildTimer] ∧
    s.executing 0 ≤ 1 ∧
    (s.log.Pairwise fun e f =>
      e.returns CancelResult.isSuccess 0 = true → f.claims 0 = false) ∧
    oks s.log 0 ≤ 1 := by
  have h : (Machine.exec step (Sys.init 1 .normal 3) finalRun).map Sys.log =
      some [.claimed 0 0, .returned 1 0 .doingCallbackInOtherThread, .returned 1 1 .cancelOk,
        .returned 2 1 .invaildTimer] := rfl
  obtain ⟨s, hs, hlog⟩ := Option.map_eq_some_iff.mp h
  exact ⟨s, hs, hlog, cancel_final (Machine.Reaches.of_exec finalRun hs) 0⟩

/-! ## Lost cancels -/

/-- Where the status is never reset between the two exchanges of a `cancel`, no claim follows a
`cancel` that has returned, whatever its result. -/
theorem cancel_not_lost {self : MgrPtr} {policy : Policy} {n : ℕ} {s : Sys}
    (h : Machine.Runs step (fun s a => lostCancel s a = false) (Sys.init self policy n) s)
    (t : Ptr) :
    s.log.Pairwise fun e f => e.returns (fun _ => true) t = true → f.claims t = false :=
  (lives_runs h _ t fun _ _ _ => id).final

theorem cancel_not_lost_run : ∃ s : Sys,
    Machine.exec (Machine.guarded (fun s a => !lostCancel s a) step) (Sys.init 1 .normal 3)
      finalRun = some s ∧ s.log.length = 4 ∧
    s.log.Pairwise fun e f => e.returns (fun _ => true) 0 = true → f.claims 0 = false := by
  have h : (Machine.exec (Machine.guarded (fun s a => !lostCancel s a) step) (Sys.init 1 .normal 3)
      finalRun).map (·.log.length) = some 4 := rfl
  obtain ⟨s, hs, hlog⟩ := Option.map_eq_some_iff.mp h
  exact ⟨s, hs, hlog, cancel_not_lost (.avoiding finalRun hs) 0⟩

def lostRun : List Label :=
  [.addTimer 0 0 5 false 7, .schedule 0 5, .advance 0, .advance 0, .advance 0, .advance 0,
    .advance 0, .cancel 1 0, .advance 1, .advance 0, .advance 0, .advance 0, .advance 0, .advance 0,
    .advance 1, .schedule 0 10, .advance 0, .advance 0, .advance 0]

theorem cancel_lost : ∃ s : Sys, Machine.exec step (Sys.init 1 .normal 2) lostRun = some s ∧
    Reachable 1 .normal 2 s ∧ (s.mgr.timers 0).mOnce = false ∧
    s.log = [.claimed 0 0, .returned 1 0 .invaildTimer, .claimed 0 0] ∧
    ¬ s.log.Pairwise fun e f =>
      e.returns (fun _ => true) 0 = true → f.claims 0 = false := by
  have h : (Machine.exec step (Sys.init 1 .normal 2) lostRun).map
      (fun s => ((s.mgr.timers 0).mOnce, s.log)) =
      some (false, [.claimed 0 0, .returned 1 0 .invaildTimer, .claimed 0 0]) := rfl
  obtain ⟨s, hs, hview⟩ := Option.map_eq_some_iff.mp h
  simp only [Prod.mk.injEq] at hview
  obtain ⟨honce, hlog⟩ := hview
  refine ⟨s, hs, Machine.Reaches.of_exec lostRun hs, honce, hlog, ?_⟩
  rw [hlog]
  decide

end Hwnet.TimerMgr
