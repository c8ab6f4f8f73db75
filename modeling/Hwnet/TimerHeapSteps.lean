import Hwnet.TimerThreadSteps

set_option autoImplicit false

/-!
# What a step of the threads does to the heap

Four kinds of steps change which timers are in the heap: `addTimer`, the pop and the insertion of
`Schedule`, and the removal of `cancel`. Every other step leaves the heap and the times of the
timers alone.
-/
namespace Hwnet.TimerMgr

open Timer

structure Alike (x y : Timer) : Prop where
  selfPtr : y.selfPtr = x.selfPtr
  expired : y.mExpiredTime = x.mExpiredTime
  timeout : y.mTimeout = x.mTimeout

structure SameHeap (m m' : TimerMgr) : Prop where
  has : ∀ t, m'.Has t ↔ m.Has t
  alike : ∀ t, Alike (m.timers t) (m'.timers t)

variable {m m' : TimerMgr} {e t : Ptr}

theorem SameHeap.refl (m : TimerMgr) : SameHeap m m :=
  ⟨fun _ => Iff.rfl, fun _ => ⟨rfl, rfl, rfl⟩⟩

theorem SameHeap.setTimer {x : Timer} (alike : Alike (m.timers e) x) :
    SameHeap m (m.setTimer e x) := by
  refine ⟨setTimer_has m e x, fun t => ?_⟩
  by_cases hte : t = e
  · rw [hte, setTimer_self]
    exact alike
  · rw [setTimer_of_ne m x hte]
    exact ⟨rfl, rfl, rfl⟩

theorem SameHeap.casStatus (m : TimerMgr) (e : Ptr) (expected setv : UInt32) :
    SameHeap m (m.casStatus e expected setv).1 := by
  unfold TimerMgr.casStatus
  split
  · exact .setTimer ⟨rfl, rfl, rfl⟩
  · exact .refl m

theorem Others.alike (h : Others m m' e) (ne : t ≠ e) : Alike (m.timers t) (m'.timers t) := by
  obtain ⟨idx, hidx⟩ := h.timers t ne
  rw [hidx]
  exact ⟨rfl, rfl, rfl⟩

def SchedulePc.changes : SchedulePc → Bool
  | .pop _ _ _ | .insert _ _ => true
  | _ => false

/-- What a turn of a thread at `th` does to the heap of `s`. -/
inductive HeapTurn (s : Sys) (th : Thread) (m : TimerMgr) : Prop where
  | same (heap : SameHeap s.mgr m) (quiet : th.cancel = .idle → th.schedule.changes = false)
      (absent : ∀ t mMgr, th.cancel = .remove t mMgr → ¬ s.mgr.Has t)
  | popped {now : UInt64} {t : Ptr} {ok : Bool} (pc : th = ⟨.pop now t ok, .idle⟩)
      (has : s.mgr.Has t) (removed : Removed s.mgr m t)
      (x : m.timers t = { s.mgr.timers t with
        mIndex := 0
        mMgr := none
        selfPtr := none })
  | removed {t : Ptr} {mMgr : MgrPtr} (pc : th.cancel = .remove t mMgr) (free : s.mtx = none)
      (has : s.mgr.Has t) (removed : Removed s.mgr m t)
      (x : m.timers t = { s.mgr.timers t with
        mIndex := 0
        mCallback := none
        selfPtr := some t })
  | inserted {now : UInt64} {t : Ptr} {idx : ℕ} (pc : th = ⟨.insert now t, .idle⟩)
      (inserted : Inserted s.mgr m t)
      (x : m.timers t = { s.mgr.timers t with
        mExpiredTime := nextExpiry s.mgr.policy now (s.mgr.timers t)
        mMgr := some s.mgr.self
        mIndex := idx
        tid := none
        selfPtr := some t })

variable {s s' w : Sys} {i : ThreadId}

theorem scheduleStep_heap {pc pc' : SchedulePc} (h : Sound s)
    (at_ : s.threads[i]? = some ⟨pc, .idle⟩) (hstep : scheduleStep s i pc = some (w, pc')) :
    HeapTurn s ⟨pc, .idle⟩ w.mgr := by
  have hsame {m : TimerMgr} (heap : SameHeap s.mgr m) (quiet : pc.changes = false) :
      HeapTurn s ⟨pc, .idle⟩ m :=
    .same heap (fun _ => quiet) fun _ _ hpc => by cases hpc
  cases pc with
  | idle | thrown t => cases hstep
  | lock now | relock now t ok =>
    obtain ⟨w', hlock, he⟩ := Option.map_eq_some_iff.mp hstep
    cases he
    unfold Sys.lock at hlock
    split_ifs at hlock
    cases hlock
    exact hsame (.refl s.mgr) rfl
  | loop now =>
    simp only [scheduleStep, Sys.enter] at hstep
    split_ifs at hstep
    · obtain ⟨tmp, -, hnext⟩ := Option.bind_eq_some_iff.mp hstep
      split_ifs at hnext
      · cases hnext
        exact hsame (.refl s.mgr) rfl
      · cases hnext
        exact hsame (.setTimer ⟨rfl, rfl, rfl⟩) rfl
    · cases hstep
      exact hsame (.refl s.mgr) rfl
  | claim now t =>
    simp only [scheduleStep, Sys.claim, Option.some.injEq, Prod.mk.injEq] at hstep
    obtain ⟨rfl, -⟩ := hstep
    refine hsame ?_ rfl
    split <;> exact .casStatus s.mgr t 0 incallback
  | pop now t ok =>
    obtain ⟨hpos, hroot⟩ := h.front i _ t at_ rfl
    obtain ⟨m, hm, hw⟩ := Option.map_eq_some_iff.mp hstep
    cases hw
    obtain ⟨e, m', he, hm', hremoved, hx⟩ := pop_spec h.serves.heap hpos
    obtain rfl := Option.some.inj (hm.symm.trans hm')
    obtain rfl := Option.some.inj (hroot.symm.trans he)
    exact .popped rfl ⟨1, le_refl 1, hpos, he⟩ hremoved hx
  | call now t | running now t =>
    cases hstep
    exact hsame (.refl s.mgr) rfl
  | settle now t ok =>
    obtain rfl : (s.settle now t ok).1 = w := congrArg Prod.fst (Option.some.inj hstep)
    refine hsame ?_ rfl
    unfold Sys.settle
    split_ifs
    · dsimp only
      split
      · exact .casStatus s.mgr t incallback 0
      · exact .setTimer ⟨rfl, rfl, rfl⟩
    · exact .setTimer ⟨rfl, rfl, rfl⟩
  | insert now t =>
    obtain ⟨m, hm, hw⟩ := Option.map_eq_some_iff.mp hstep
    cases hw
    obtain ⟨m', idx, hm', hinserted, hx⟩ :=
      rearm_spec h.serves.heap (h.serves.owned t (h.schedule i _ t at_ rfl)) now
    obtain rfl := Option.some.inj (hm.symm.trans hm')
    exact .inserted rfl hinserted hx

theorem cancelStep_heap {p : SchedulePc} {pc pc' : CancelPc} (h : Sound s)
    (hstep : cancelStep s i pc = some (w, pc')) : HeapTurn s ⟨p, pc⟩ w.mgr := by
  have hsame {m : TimerMgr} (heap : SameHeap s.mgr m) (busy : pc ≠ .idle)
      (other : ∀ u mMgr, pc ≠ .remove u mMgr) : HeapTurn s ⟨p, pc⟩ m :=
    .same heap (fun hpc => absurd hpc busy) fun u mMgr hpc => absurd hpc (other u mMgr)
  cases pc with
  | idle | crashed t => cases hstep
  | cas1 t =>
    cases hstep
    exact hsame (.casStatus s.mgr t 0 canceled) (by simp) (by simp)
  | cas2 t =>
    have hcas := SameHeap.casStatus s.mgr t incallback (incallback ||| canceled)
    simp only [cancelStep, Option.some.injEq] at hstep
    split_ifs at hstep <;> (cases hstep; exact hsame hcas (by simp) (by simp))
  | load t first | readTid t =>
    cases hstep
    exact hsame (.refl s.mgr) (by simp) (by simp)
  | readMgr t =>
    simp only [cancelStep] at hstep
    split at hstep <;> (cases hstep; exact hsame (.refl s.mgr) (by simp) (by simp))
  | remove t mMgr =>
    simp only [cancelStep] at hstep
    split_ifs at hstep with hfree
    obtain ⟨r, hr, hw⟩ := Option.map_eq_some_iff.mp hstep
    cases hw
    by_cases hhas : s.mgr.Has t
    · obtain ⟨m, hm, hremoved, hx⟩ := remove_spec h.serves.heap hhas
      obtain rfl := Option.some.inj (hr.symm.trans hm)
      exact .removed rfl hfree.1 hhas hremoved hx
    · obtain rfl := Option.some.inj ((remove_absent h.serves.heap hhas).symm.trans hr)
      refine .same (.refl s.mgr) (fun hpc => by cases hpc) fun u mMgr' hpc => ?_
      cases hpc
      exact hhas

theorem threadStep_heap {th th' : Thread} (h : Sound s) (at_ : s.threads[i]? = some th)
    (hturn : threadStep s i th = some (w, th')) : HeapTurn s th w.mgr := by
  obtain ⟨p, pc⟩ := th
  unfold threadStep at hturn
  split_ifs at hturn with hidle
  · obtain rfl : pc = .idle := hidle
    obtain ⟨⟨w', p'⟩, hp, hw⟩ := Option.map_eq_some_iff.mp hturn
    cases hw
    exact scheduleStep_heap h at_ hp
  · obtain ⟨⟨w', pc'⟩, hpc, hw⟩ := Option.map_eq_some_iff.mp hturn
    cases hw
    exact cancelStep_heap h hpc

/-- But for the insertion of `t` no turn brings it into the heap or changes its times. -/
theorem HeapTurn.steady {th : Thread} (h : HeapTurn s th m) (t : Ptr)
    (stays : ∀ now, th ≠ ⟨.insert now t, .idle⟩) : (m.Has t → s.mgr.Has t) ∧
      (m.timers t).mExpiredTime = (s.mgr.timers t).mExpiredTime ∧
      (m.timers t).mTimeout = (s.mgr.timers t).mTimeout := by
  cases h with
  | same heap => exact ⟨(heap.has t).mp, (heap.alike t).expired, (heap.alike t).timeout⟩
  | @popped now e ok pc has removed x | @removed e mMgr pc free has removed x =>
    refine ⟨fun ht => ((removed.has t).mp ht).1, ?_⟩
    by_cases hte : t = e
    · rw [hte, x]
      exact ⟨rfl, rfl⟩
    · have halike := removed.others.alike hte
      exact ⟨halike.expired, halike.timeout⟩
  | @inserted now e idx pc inserted x =>
    have hte : t ≠ e := by
      rintro rfl
      exact stays now pc
    have halike := inserted.others.alike hte
    exact ⟨fun ht => ((inserted.has t).mp ht).resolve_right hte, halike.expired, halike.timeout⟩

end Hwnet.TimerMgr
