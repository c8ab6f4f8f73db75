import Hwnet.TimerThreadSteps

set_option autoImplicit false

/-!
# Schedule undisturbed

When no other thread moves, a thread in `Schedule` does to the manager what `scheduleLoop` does, and
claims what it fires. So what one call fires in a heap holds of a call among the threads.
-/
namespace Hwnet.TimerMgr

open Timer

/-- The steps of thread `i` in its call of `Schedule`. -/
def Own (i : ThreadId) (now : UInt64) (_ : Sys) (a : Label) : Prop :=
  a = .schedule i now ∨ a = .advance i

def Sys.put (s : Sys) (i : ThreadId) (mgr : TimerMgr) (mtx : Option ThreadId) (log : List Event)
    (pc : SchedulePc) : Sys :=
  { s with mgr, mtx, log, threads := s.threads.set i ⟨pc, .idle⟩ }

section Alone

variable {s : Sys} {i : ThreadId} {now : UInt64} {m m' : TimerMgr} {x x' : Option ThreadId}
  {l l' : List Event} {pc pc' : SchedulePc} {t : Ptr} {ok : Bool} {fired : List Fired}

theorem put_step (hi : i < s.threads.length)
    (h : scheduleStep (s.put i m x l pc) i pc =
      some ({ s.put i m x l pc with mgr := m', mtx := x', log := l' }, pc')) :
    Machine.Runs step (Own i now) (s.put i m x l pc) (s.put i m' x' l' pc') := by
  have hth : (s.put i m x l pc).threads[i]? = some ⟨pc, .idle⟩ := List.getElem?_set_self hi
  refine .next (a := .advance i) .refl (.inr rfl) ?_
  simp only [step, hth, threadStep, h, Option.bind_eq_bind, Option.bind_some, if_true,
    Option.map_some]
  simp [Sys.resume, Sys.put]

def claims (i : ThreadId) (t : Ptr) (ok : Bool) : List Event := if ok then [.claimed i t] else []

theorem claim_alone (hi : i < s.threads.length) {c : TimerMgr}
    (hcas : m.casStatus t 0 incallback = (c, ok)) :
    Machine.Runs step (Own i now) (s.put i m (some i) l (.claim now t))
      (s.put i c (some i) (l ++ claims i t ok) (.pop now t ok)) := by
  apply put_step hi
  cases ok <;> simp [scheduleStep, Sys.claim, hcas, Sys.note, claims, Sys.put]

theorem call_alone (hi : i < s.threads.length) (hpop : m.pop = some m') {e : UInt64}
    (hcall : m'.call t ok e = some fired) :
    Machine.Runs step (Own i now) (s.put i m (some i) l (.pop now t ok))
      (s.put i m' (some i) l (.settle now t ok)) := by
  have hlock : Machine.Runs step (Own i now) (s.put i m' none l (.relock now t ok))
      (s.put i m' (some i) l (.settle now t ok)) := put_step hi rfl
  refine Machine.Runs.trans ?_ hlock
  cases ok with
  | false =>
    apply put_step hi
    simp [scheduleStep, Sys.popTop, hpop, Sys.put]
  | true =>
    have hcb : (m'.timers t).mCallback.isSome = true := by
      unfold call at hcall
      by_contra hnone
      simp [hnone] at hcall
    have hunlock : Machine.Runs step (Own i now) (s.put i m (some i) l (.pop now t true))
        (s.put i m' none l (.call now t)) := by
      apply put_step hi
      simp [scheduleStep, Sys.popTop, hpop, Sys.put]
    have hrun : Machine.Runs step (Own i now) (s.put i m' none l (.call now t))
        (s.put i m' none l (.running now t)) := by
      apply put_step hi
      simp [scheduleStep, hcb, Sys.put]
    have hreturn : Machine.Runs step (Own i now) (s.put i m' none l (.running now t))
        (s.put i m' none l (.relock now t true)) := put_step hi rfl
    exact (hunlock.trans hrun).trans hreturn

theorem casStatus_failed {c : TimerMgr} {expected setv : UInt32}
    (h : m.casStatus t expected setv = (c, false)) : c = m := by
  unfold casStatus at h
  split at h
  · cases h
  · exact (Prod.mk.inj h).1.symm

theorem settle_alone (hi : i < s.threads.length) (hsettle : m.settle now t ok = some m') :
    Machine.Runs step (Own i now) (s.put i m (some i) l (.settle now t ok))
      (s.put i m' (some i) l (.loop now)) := by
  have hdrop (hm : m.release t = m')
      (hgo : (s.put i m (some i) l (.settle now t ok)).settle now t ok =
        (s.put i m (some i) l (.settle now t ok)).drop now t) :
      Machine.Runs step (Own i now) (s.put i m (some i) l (.settle now t ok))
        (s.put i m' (some i) l (.loop now)) := by
    subst hm
    apply put_step hi
    rw [scheduleStep, hgo]
    rfl
  unfold TimerMgr.settle at hsettle
  by_cases hperiodic : ok = true ∧ (m.timers t).mOnce = false
  · rw [if_pos hperiodic] at hsettle
    cases hcas : m.casStatus t incallback 0 with
    | mk c again =>
      rw [hcas] at hsettle
      cases again with
      | true =>
        have harm : c.rearm now t = some m' := hsettle
        have hreset : Machine.Runs step (Own i now) (s.put i m (some i) l (.settle now t ok))
            (s.put i c (some i) l (.insert now t)) := by
          apply put_step hi
          simp [scheduleStep, Sys.settle, hcas, hperiodic, Sys.put]
        refine hreset.trans (put_step hi ?_)
        simp [scheduleStep, harm, Sys.put]
      | false =>
        have hrelease : some (c.release t) = some m' := hsettle
        rw [casStatus_failed hcas] at hrelease
        refine hdrop (Option.some.inj hrelease) ?_
        simp [Sys.settle, hcas, hperiodic, Sys.put]
  · rw [if_neg hperiodic] at hsettle
    refine hdrop (Option.some.inj hsettle) ?_
    simp [Sys.settle, hperiodic, Sys.put]

theorem call_fired {e : UInt64} (h : m.call t ok e = some fired) :
    claims i t ok = fired.map fun f => .claimed i f.1 := by
  unfold call at h
  cases ok with
  | true =>
    simp only [if_true] at h
    split_ifs at h
    cases h
    rfl
  | false =>
    cases h
    rfl

theorem pass_alone (hi : i < s.threads.length) (hpass : m.pass i now t = some (m', fired)) :
    Machine.Runs step (Own i now) (s.put i (m.setTid t (some i)) (some i) l (.claim now t))
      (s.put i m' (some i) (l ++ fired.map fun f => .claimed i f.1) (.loop now)) := by
  unfold pass at hpass
  cases hcas : (m.setTid t (some i)).casStatus t 0 incallback with
  | mk c ok =>
    simp only [hcas, Option.bind_eq_bind, Option.bind_eq_some_iff] at hpass
    obtain ⟨p, hpop, f, hcall, q, hsettle, hr⟩ := hpass
    cases hr
    rw [← call_fired hcall]
    exact ((claim_alone hi hcas).trans (call_alone hi hpop hcall)).trans (settle_alone hi hsettle)

theorem loop_alone (fuel : ℕ) (hi : i < s.threads.length)
    (h : scheduleLoop i now fuel m = some (m', fired)) :
    Machine.Runs step (Own i now) (s.put i m (some i) l (.loop now))
      (s.put i m' none (l ++ fired.map fun f => .claimed i f.1) .idle) := by
  induction fuel generalizing m l fired with
  | zero => cases h
  | succ fuel ih =>
    have hleave (hgo : scheduleStep (s.put i m (some i) l (.loop now)) i (.loop now) =
          some ({ s.put i m (some i) l (.loop now) with mtx := none }, .idle)) :
        Machine.Runs step (Own i now) (s.put i m (some i) l (.loop now))
          (s.put i m none (l ++ []) .idle) := by
      rw [List.append_nil]
      exact put_step hi hgo
    rw [scheduleLoop] at h
    by_cases hpos : 0 < m.elementsSize
    · rw [if_pos hpos, Option.bind_eq_bind, Option.bind_eq_some_iff] at h
      obtain ⟨t, htop, h⟩ := h
      by_cases hlate : now < (m.timers t).mExpiredTime
      · rw [if_pos hlate] at h
        cases h
        apply hleave
        simp [scheduleStep, Sys.enter, Sys.put, hpos, htop, hlate]
      · simp only [if_neg hlate, Option.bind_eq_bind, Option.bind_eq_some_iff] at h
        obtain ⟨⟨c, first⟩, hpass, ⟨m₂, rest⟩, hrest, hr⟩ := h
        cases hr
        have hclaim : Machine.Runs step (Own i now) (s.put i m (some i) l (.loop now))
            (s.put i (m.setTid t (some i)) (some i) l (.claim now t)) := by
          apply put_step hi
          simp [scheduleStep, Sys.enter, Sys.put, hpos, htop, hlate]
        rw [List.map_append, ← List.append_assoc]
        exact (hclaim.trans (pass_alone hi hpass)).trans (ih hrest)
    · rw [if_neg hpos] at h
      cases h
      apply hleave
      simp [scheduleStep, Sys.enter, Sys.put, hpos]

/-- A call of `Schedule` that nobody disturbs is one of `scheduleLoop`. -/
theorem schedule_alone {fuel : ℕ} (idle : s.threads[i]? = some ⟨.idle, .idle⟩) (free : s.mtx = none)
    (h : scheduleLoop i now fuel s.mgr = some (m', fired)) :
    Machine.Runs step (Own i now) s { s with
      mgr := m'
      log := s.log ++ fired.map fun f => .claimed i f.1 } := by
  have hi : i < s.threads.length := (List.getElem?_eq_some_iff.mp idle).1
  have hback : s.put i m' none (s.log ++ fired.map fun f => .claimed i f.1) .idle =
      { s with mgr := m', log := s.log ++ fired.map fun f => .claimed i f.1 } := by
    have hth : s.threads[i] = ⟨.idle, .idle⟩ := (List.getElem?_eq_some_iff.mp idle).2
    have hsame : s.threads.set i ⟨.idle, .idle⟩ = s.threads := by
      rw [← hth, List.set_getElem_self]
    simp [Sys.put, hsame, free]
  have hcall : Machine.Runs step (Own i now) s (s.put i s.mgr none s.log (.lock now)) := by
    refine .next (a := .schedule i now) .refl (.inl rfl) ?_
    simp [step, idle, Sys.resume, Sys.put, free]
  have hlock : Machine.Runs step (Own i now) (s.put i s.mgr none s.log (.lock now))
      (s.put i s.mgr (some i) s.log (.loop now)) := put_step hi rfl
  rw [← hback]
  exact (hcall.trans hlock).trans (loop_alone fuel hi h)

end Alone

def periodicRun : List Label := [.addTimer 0 5 5 false 7, .addTimer 1 0 40 false 8]

end Hwnet.TimerMgr
