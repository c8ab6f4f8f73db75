import Hwnet.TimerCancel
import Hwnet.TimerHeapSteps

set_option autoImplicit false

/-!
# The timers a manager owns

While a timer is in the heap it keeps itself alive by `selfPtr`. `pop` clears the pointer and
`insert` sets it; `remove` sets it too, when the timer has left the heap.
-/
namespace Hwnet.TimerMgr

open Timer

/-- The timer keeps itself alive in no slot of the heap. -/
def Leaked (m : TimerMgr) (t : Ptr) : Prop := (m.timers t).selfPtr ≠ none ∧ ¬ m.Has t

def takesOut (s : Sys) : Label → Bool
  | .advance i =>
    match s.threads[i]? with
    | some ⟨_, .remove t _⟩ => decide (t ∈ s.mgr.members)
    | _ => false
  | _ => false

/-! ## What leaks -/

section Operations

variable {m m' : TimerMgr} {e t : Ptr}

theorem SameHeap.leaked (h : SameHeap m m') : Leaked m' t ↔ Leaked m t := by
  unfold Leaked
  rw [h.has, (h.alike t).selfPtr]

/-- Whether a timer that is taken out leaks depends on its pointer alone. -/
theorem Removed.leaked (h : Removed m m' e) (hhas : m.Has e) :
    Leaked m' t ↔ Leaked m t ∨ t = e ∧ (m'.timers e).selfPtr ≠ none := by
  unfold Leaked
  rw [h.has]
  by_cases hte : t = e
  · subst hte
    simp [hhas]
  · rw [(h.others.alike hte).selfPtr]
    simp [hte]

theorem Inserted.leaked (h : Inserted m m' e) : Leaked m' t ↔ Leaked m t ∧ t ≠ e := by
  unfold Leaked
  rw [h.has]
  by_cases hte : t = e
  · simp [hte]
  · rw [(h.others.alike hte).selfPtr]
    simp [hte]

end Operations

variable {s s' w : Sys} {i : ThreadId} {t : Ptr}

/-- What a step does to the timers that have leaked: only a `remove` adds one, and only an insertion
takes one away. -/
theorem step_leaked (h : Sound s) {a : Label} (hstep : step s a = some s') :
    takesOut s a = false ∧ (∀ u, Leaked s'.mgr u ↔ Leaked s.mgr u) ∨
    (takesOut s a = false ∧ ∃ e, (e ∉ s.handles ∨
        ∃ (i : ThreadId) (th : Thread), s.threads[i]? = some th ∧
          th.schedule.inserting = some e) ∧
        ∀ u, Leaked s'.mgr u ↔ Leaked s.mgr u ∧ u ≠ e) ∨
    takesOut s a = true ∧ s.mtx = none ∧ ∃ (i : ThreadId) (th : Thread) (t : Ptr),
      s.threads[i]? = some th ∧ th.cancel.won = some t ∧
        ∀ u, Leaked s'.mgr u ↔ Leaked s.mgr u ∨ u = t := by
  cases a with
  | addTimer t now timeout once cb =>
    obtain ⟨-, hnew, m, idx, rfl, hinserted, -⟩ := addTimer_spec h hstep
    refine .inr (.inl ⟨rfl, t, .inl hnew, fun u => ?_⟩)
    rw [hinserted.leaked]
    refine and_congr_left fun hut => ?_
    unfold Leaked
    rw [setTimer_has, setTimer_of_ne _ _ hut]
  | schedule i now =>
    simp only [step] at hstep
    split_ifs at hstep
    cases hstep
    exact .inl ⟨rfl, fun _ => Iff.rfl⟩
  | cancel i t =>
    obtain ⟨th, -, hstep⟩ := Option.bind_eq_some_iff.mp hstep
    split_ifs at hstep
    cases hstep
    exact .inl ⟨rfl, fun _ => Iff.rfl⟩
  | advance i =>
    obtain ⟨th, w, th', hth, hturn, rfl⟩ := advance_eq hstep
    have hkeeps (stays : ∀ t mMgr, th.cancel = .remove t mMgr → ¬ s.mgr.Has t) :
        takesOut s (.advance i) = false := by
      obtain ⟨p, pc⟩ := th
      cases pc with
      | remove t mMgr =>
        simp only [takesOut, hth, decide_eq_false_iff_not, mem_members]
        exact stays t mMgr rfl
      | _ => simp [takesOut, hth]
    cases threadStep_heap h hth hturn with
    | same heap _ absent => exact .inl ⟨hkeeps absent, fun _ => heap.leaked⟩
    | @popped now t ok pc has removed x =>
      refine .inl ⟨hkeeps (by simp [pc]), fun u => ?_⟩
      show Leaked w.mgr u ↔ _
      rw [removed.leaked has, x]
      simp
    | @removed t mMgr pc free has removed x =>
      refine .inr (.inr ⟨?_, free, i, th, t, hth, by rw [pc]; rfl, fun u => ?_⟩)
      · obtain ⟨p, pc'⟩ := th
        obtain rfl : pc' = .remove t mMgr := pc
        simpa [takesOut, hth, mem_members] using has
      · show Leaked w.mgr u ↔ _
        rw [removed.leaked has, x]
        simp
    | @inserted now t idx pc inserted x =>
      refine .inr (.inl ⟨hkeeps (by simp [pc]), t, .inr ⟨i, th, hth, by rw [pc]; rfl⟩,
        fun u => inserted.leaked⟩)

/-! ## A timer that has leaked stays so -/

structure Finished (s : Sys) (t : Ptr) : Prop where
  known : t ∈ s.handles
  dead : Dead (s.mgr.status t)
  inserting : ∀ (i : ThreadId) (th : Thread), s.threads[i]? = some th →
    th.schedule.inserting ≠ some t

theorem Moved.dead {th th' : Thread} (h : Moved s i th w th') (dead : Dead (s.mgr.status t)) :
    Dead (w.mgr.status t) := by
  have hset {u : Ptr} {x y : UInt32} (old : s.mgr.status u = y) (alive : ¬ Dead y)
      (status : w.mgr.status = Function.update s.mgr.status u x) : Dead (w.mgr.status t) := by
    have hut : t ≠ u := by
      rintro rfl
      exact alive (old ▸ dead)
    rw [status, Function.update_of_ne hut]
    exact dead
  cases h with
  | claim zero writes | win zero writes => exact hset zero not_dead_zero writes.status
  | rearm busy writes | join busy writes => exact hset busy not_dead_incallback writes.status
  | quiet writes | refuse _ writes | pop writes | insert writes | fail _ writes | load writes
  | doing _ _ _ writes | through _ _ writes | crash _ writes | removed writes =>
    rw [writes.status]
    exact dead

/-- Only a thread that resets the status goes on to insert. -/
theorem Moved.inserting {th th' : Thread} (h : Moved s i th w th') (dead : Dead (s.mgr.status t))
    (idle : th.schedule.inserting ≠ some t) : th'.schedule.inserting ≠ some t := by
  cases h with
  | quiet writes pcs => exact pcs.inserting ▸ idle
  | @rearm now u _ busy writes =>
    intro hu
    cases hu
    exact not_dead_incallback (busy ▸ dead)
  | pop writes => split <;> simp [SchedulePc.inserting]
  | claim | refuse | insert => simp [SchedulePc.inserting]
  | win | join | fail | load | doing | through | crash | removed => exact idle

theorem Finished.stays (h : Finished s t) (sound : Sound s) {a : Label}
    (hstep : step s a = some s') : Finished s' t := by
  cases (step_stepped sound hstep).2 with
  | added new handles threads writes =>
    refine ⟨handles ▸ List.mem_cons_of_mem _ h.known, ?_, threads ▸ h.inserting⟩
    rw [writes.status]
    exact h.dead
  | @called _ i th th' at_ pcs =>
    refine ⟨h.known, h.dead, fun j x hx => ?_⟩
    rcases Machine.of_getElem?_set hx with ⟨rfl, rfl⟩ | ⟨-, hx⟩
    · exact pcs.inserting ▸ h.inserting j th at_
    · exact h.inserting j x hx
  | @moved i th th' w at_ threads handles move =>
    refine ⟨handles ▸ h.known, move.dead h.dead, fun j x hx => ?_⟩
    have hx : (s.threads.set i th')[j]? = some x := threads ▸ hx
    rcases Machine.of_getElem?_set hx with ⟨rfl, rfl⟩ | ⟨-, hx⟩
    · exact move.inserting h.dead (h.inserting j th at_)
    · exact h.inserting j x hx

theorem Finished.leaked (h : Finished s t) (leaked : Leaked s.mgr t) (sound : Sound s) {a : Label}
    (hstep : step s a = some s') : Leaked s'.mgr t := by
  rcases step_leaked sound hstep with ⟨-, hsame⟩ | ⟨-, e, hfresh, hsame⟩ |
    ⟨-, -, -, -, u, -, -, hsame⟩
  · exact (hsame t).mpr leaked
  · refine (hsame t).mpr ⟨leaked, ?_⟩
    rintro rfl
    rcases hfresh with hnew | ⟨i, th, hth, hinserting⟩
    · exact hnew h.known
    · exact h.inserting i th hth hinserting
  · exact (hsame t).mpr (.inl leaked)

/-- A timer that a `cancel` has won while the mutex is free. -/
theorem finished_of_won {self : MgrPtr} {policy : Policy} {n : ℕ}
    (reach : Reachable self policy n s) (free : s.mtx = none) {th : Thread}
    (hth : s.threads[i]? = some th) (hwon : th.cancel.won = some t) : Finished s t := by
  have hsound := sound_runs reach
  have hlife : s.Lives CancelResult.isOk t := lives_ok reach t
  refine ⟨hsound.cancel i th t hth ?_, .inl ?_, fun j x hx hinserting => ?_⟩
  · cases hc : th.cancel with
    | load u first =>
      rw [hc] at hwon
      cases first with
      | true => exact hwon
      | false => cases hwon
    | readMgr u | remove u m =>
      rw [hc] at hwon
      exact hwon
    | _ =>
      rw [hc] at hwon
      cases hwon
  · exact hlife.won (Nat.add_pos_left (winners_pos hth hwon) _)
  · -- whoever inserts holds the mutex
    have hholds : x.schedule.holding = true := by
      cases hp : x.schedule <;> rw [hp] at hinserting <;> first | rfl | cases hinserting
    have hheld := (hsound.lock j x hx).mp hholds
    rw [free] at hheld
    cases hheld

/-! ## The manager owns its heap -/

/-- With a heap that is well formed no timer leaks if and only if the manager owns just what is in
the heap. -/
theorem owns_iff {m : TimerMgr} (h : Heap m) :
    (∀ t, (m.timers t).selfPtr ≠ none ↔ m.Has t) ↔ ∀ t, ¬ Leaked m t := by
  constructor
  · exact fun howns t hleaked => hleaked.2 ((howns t).mp hleaked.1)
  · refine fun hnone t => ⟨fun hself => ?_, fun hhas => ?_⟩
    · by_contra hout
      exact hnone t ⟨hself, hout⟩
    · rw [h.owned t hhas]
      simp

/-- After any run of any threads, also where no `Schedule` is in progress, the timers that keep
themselves alive are those in the heap if and only if no `cancel` has taken a timer out of it. -/
theorem owned_iff (self : MgrPtr) (policy : Policy) (n : ℕ) (labels : List Label)
    (run : Machine.exec step (Sys.init self policy n) labels = some s) :
    (∀ t, (s.mgr.timers t).selfPtr ≠ none ↔ s.mgr.Has t) ↔
      Machine.tally step takesOut (Sys.init self policy n) labels = 0 := by
  rw [owns_iff (sound_runs (Machine.Reaches.of_exec labels run)).serves.heap]
  constructor
  · intro hnone
    by_contra honce
    obtain ⟨u, a, v, hu, htakes, hstep, hv⟩ := Machine.exists_of_tally takesOut labels run honce
    have hsound := sound_runs hu
    rcases step_leaked hsound hstep with ⟨hkeeps, -⟩ | ⟨hkeeps, -⟩ |
      ⟨-, hfree, i, th, t, hth, hwon, hsame⟩
    · cases htakes.symm.trans hkeeps
    · cases htakes.symm.trans hkeeps
    · have hfinished : Finished v t := (finished_of_won hu hfree hth hwon).stays hsound hstep
      have hlost : Finished s t ∧ Leaked s.mgr t :=
        hv.invariant (I := fun w => Finished w t ∧ Leaked w.mgr t)
          ⟨hfinished, (hsame t).mpr (.inr rfl)⟩ fun x y b hx hlost _ hstep' => by
            have hsound' := sound_runs ((hu.next trivial hstep).trans hx)
            exact ⟨hlost.1.stays hsound' hstep', hlost.1.leaked hlost.2 hsound' hstep'⟩
      exact hnone t hlost.2
  · intro hnever
    have hstart (t : Ptr) : ¬ Leaked (Sys.init self policy n).mgr t := fun h => h.1 rfl
    refine (Machine.Runs.of_tally takesOut labels run hnever).invariant
      (I := fun u => ∀ t, ¬ Leaked u.mgr t) hstart fun u v a hu hnone hkeeps hstep t hleaked => ?_
    rcases step_leaked (sound_runs hu) hstep with ⟨-, hsame⟩ | ⟨-, e, -, hsame⟩ | ⟨htakes, -⟩
    · exact hnone t ((hsame t).mp hleaked)
    · exact hnone t ((hsame t).mp hleaked).1
    · cases htakes.symm.trans hkeeps

def cancelRun : List Label :=
  [.addTimer 7 0 5 true 3, .cancel 0 7, .advance 0, .advance 0, .advance 0, .advance 0]

/-- `cancel` has returned and no thread is in the manager's code; the timer keeps itself alive and
is in no heap. -/
theorem selfPtr_left : ∃ s : Sys, Machine.exec step (Sys.init 1 .normal 1) cancelRun = some s ∧
    s.threads = [⟨.idle, .idle⟩] ∧ s.log = [.returned 0 7 .cancelOk] ∧
    (s.mgr.timers 7).selfPtr = some 7 ∧ ¬ s.mgr.Has 7 ∧
    ¬ ∀ t, (s.mgr.timers t).selfPtr ≠ none ↔ s.mgr.Has t := by
  have h : (Machine.exec step (Sys.init 1 .normal 1) cancelRun).map
      (fun s => (s.threads, s.log, (s.mgr.timers 7).selfPtr, s.mgr.members)) =
      some ([⟨.idle, .idle⟩], [.returned 0 7 .cancelOk], some 7, []) := by decide
  obtain ⟨s, hs, hview⟩ := Option.map_eq_some_iff.mp h
  simp only [Prod.mk.injEq] at hview
  obtain ⟨hthreads, hlog, hself, hmembers⟩ := hview
  have hout : ¬ s.mgr.Has 7 := by
    rw [← mem_members, hmembers]
    exact List.not_mem_nil
  refine ⟨s, hs, hthreads, hlog, hself, hout, fun howns => hout ((howns 7).mp ?_)⟩
  rw [hself]
  simp

/-- Of two timers one has fired. -/
theorem owned_fired : ∃ s : Sys,
    Machine.exec step (Sys.init 1 .normal 1) ([.addTimer 7 0 5 true 3, .addTimer 8 0 50 false 3,
      .schedule 0 10] ++ .replicate 9 (.advance 0)) = some s ∧
    s.threads = [⟨.idle, .idle⟩] ∧ s.mgr.members = [8] ∧
    ∀ t, (s.mgr.timers t).selfPtr ≠ none ↔ s.mgr.Has t := by
  have h : (Machine.exec step (Sys.init 1 .normal 1) ([.addTimer 7 0 5 true 3,
      .addTimer 8 0 50 false 3, .schedule 0 10] ++ .replicate 9 (.advance 0))).map
        (fun s => (s.threads, s.mgr.members)) = some ([⟨.idle, .idle⟩], [8]) := by decide
  obtain ⟨s, hs, hview⟩ := Option.map_eq_some_iff.mp h
  simp only [Prod.mk.injEq] at hview
  exact ⟨s, hs, hview.1, hview.2, (owned_iff 1 .normal 1 _ hs).mpr (by decide)⟩

end Hwnet.TimerMgr
