import Hwnet.TimerHeapSteps
import Hwnet.TimerRoutine

set_option autoImplicit false

/-!
# The deadline of the timer thread

While the timer thread is blocked, the only timers to come into the heap are new ones. `addTimer`
compares relative times, and a notification is missed only where the new expiry wraps around.
-/
namespace Hwnet

namespace TimerMgr

open Timer

/-! ## The timers of the heap -/

def Fewer (m m' : TimerMgr) : Prop :=
  ∀ t, m'.Has t → m.Has t ∧ (m'.timers t).mExpiredTime = (m.timers t).mExpiredTime

theorem Fewer.refl (m : TimerMgr) : Fewer m m := fun _ ht => ⟨ht, rfl⟩

/-- A thread outside `Schedule` brings no timer into the heap. -/
theorem advance_fewer {s s' : Sys} {i : ThreadId} (h : Sound s)
    (outside : ∀ th, s.threads[i]? = some th → th.schedule = .idle)
    (hstep : step s (.advance i) = some s') : Fewer s.mgr s'.mgr := by
  obtain ⟨th, w, th', hth, hturn, rfl⟩ := advance_eq hstep
  intro t ht
  have hsteady := (threadStep_heap h hth hturn).steady t fun now hpc => by
    have hidle := outside th hth
    rw [hpc] at hidle
    cases hidle
  exact ⟨hsteady.1 ht, hsteady.2.1⟩

def Alone (s : Sys) (i : ThreadId) : Prop :=
  ∀ (j : ThreadId) (th : Thread), j ≠ i → s.threads[j]? = some th → th.schedule = .idle

theorem Alone.resume {s w : Sys} {i j : ThreadId} {th' : Thread} (h : Alone s i)
    (threads : w.threads = s.threads) (still : j ≠ i → th'.schedule = .idle) :
    Alone (Sys.resume j (w, th')) i := by
  intro k x hk hx
  have hset : (s.threads.set j th')[k]? = some x := by rw [← threads]; exact hx
  rcases Machine.of_getElem?_set hset with ⟨rfl, rfl⟩ | ⟨-, hx⟩
  · exact still hk
  · exact h k x hk hx

theorem alone_step {s s' : Sys} {i : ThreadId} (h : Sound s) (alone : Alone s i) {a : Label}
    (mine : ∀ j now, a = .schedule j now → j = i) (hstep : step s a = some s') : Alone s' i := by
  cases a with
  | addTimer t now timeout once cb =>
    obtain ⟨-, -, m, idx, rfl, -⟩ := addTimer_spec h hstep
    exact alone
  | schedule j now =>
    simp only [step] at hstep
    split_ifs at hstep
    cases hstep
    exact alone.resume rfl fun hj => absurd (mine j now rfl) hj
  | cancel j t =>
    obtain ⟨th, hth, hstep⟩ := Option.bind_eq_some_iff.mp hstep
    split_ifs at hstep
    cases hstep
    exact alone.resume rfl fun hj => alone j th hj hth
  | advance j =>
    obtain ⟨th, w, th', hth, hturn, rfl⟩ := advance_eq hstep
    refine alone.resume (threadStep_turn h hth hturn).1.threads fun hj => ?_
    have hidle := alone j th hj hth
    unfold threadStep at hturn
    split_ifs at hturn
    · rw [hidle] at hturn
      cases hturn
    · obtain ⟨x, -, he⟩ := Option.map_eq_some_iff.mp hturn
      cases he
      exact hidle

end TimerMgr

namespace TimerRoutine

open Timer

/-! ## Sleeping -/

def Punctual (r : TimerRoutine) : Prop :=
  ∀ deadline, r.pc = .blocked deadline false →
    ∀ t, r.mgr.mgr.Has t → deadline ≤ (r.mgr.mgr.timers t).mExpiredTime.toNat

/-- The thread is not notified of a timer whose expiry wraps around to before the deadline. -/
def wraps (r : TimerRoutine) : Label → Bool
  | .addTimer _ timeout _ _ =>
    match r.pc with
    | .blocked deadline false =>
      r.waitTime ≤ timeout && 2 ^ 64 ≤ r.now.toNat + timeout.toNat &&
        (r.now + timeout).toNat < deadline
    | _ => false
  | _ => false

/-- What `addTimer` relies on when it compares with `waitTime`. -/
structure Sleeping (r : TimerRoutine) (deadline : ℕ) : Prop where
  waitting : r.waitting = true
  reach : deadline ≤ r.now.toNat + r.waitTime.toNat
  due : ∀ t, r.mgr.mgr.Has t → deadline ≤ (r.mgr.mgr.timers t).mExpiredTime.toNat

structure Timely (r : TimerRoutine) : Prop where
  sound : TimerMgr.Sound r.mgr
  alone : TimerMgr.Alone r.mgr thd
  sleeping : ∀ deadline, r.pc = .blocked deadline false → r.Sleeping deadline

variable {r r' : TimerRoutine}

theorem Timely.punctual (h : Timely r) : Punctual r := fun deadline hpc =>
  (h.sleeping deadline hpc).due

theorem Timely.awake (h : Timely r) (mgr : r'.mgr = r.mgr)
    (awake : ∀ deadline, r'.pc ≠ .blocked deadline false) : Timely r' :=
  ⟨mgr ▸ h.sound, mgr ▸ h.alone, fun deadline hpc => absurd hpc (awake deadline)⟩

theorem notify_mgr (r : TimerRoutine) : r.notify.mgr = r.mgr := by
  obtain ⟨pc, hnotify, -⟩ := notify_eq r
  rw [hnotify]

theorem notify_awake (r : TimerRoutine) (deadline : ℕ) :
    r.notify.pc ≠ .blocked deadline false := by
  obtain ⟨pc, hnotify, ⟨-, hawake⟩ | ⟨deadline', notified, -, rfl⟩⟩ := notify_eq r
  · rw [hnotify]
    exact hawake deadline false
  · rw [hnotify]
    exact nofun

theorem sleep_due (h : TimerMgr.Sound r.mgr) {waitTime : UInt64}
    (hsleep : r.sleep = some (some waitTime)) {t : Ptr} (ht : r.mgr.mgr.Has t) :
    r.now.toNat + waitTime.toNat ≤ (r.mgr.mgr.timers t).mExpiredTime.toNat := by
  have hpos : 0 < r.mgr.mgr.elementsSize := by
    obtain ⟨i, hi, hi', -⟩ := ht
    omega
  obtain ⟨e, he, -, htop⟩ := TimerMgr.top_eq h.serves.heap hpos
  have hfirst := UInt64.le_iff_toNat_le.mp (h.serves.heap.root_le he ht)
  unfold sleep at hsleep
  rw [if_neg (by omega), htop] at hsleep
  simp only [Option.bind_eq_bind, Option.bind_some, Option.pure_def, Option.some.injEq] at hsleep
  split_ifs at hsleep with hlater
  obtain rfl := Option.some.inj hsleep
  have hle := UInt64.lt_iff_toNat_lt.mp hlater
  rw [UInt64.toNat_sub_of_le _ _ (UInt64.le_iff_toNat_le.mpr hle.le)]
  omega

theorem Timely.fewer (h : Timely r) {mgr : TimerMgr.Sys} (sound : TimerMgr.Sound mgr)
    (alone : TimerMgr.Alone mgr thd) (fewer : TimerMgr.Fewer r.mgr.mgr mgr.mgr) :
    Timely { r with mgr } where
  sound := sound
  alone := alone
  sleeping := by
    intro deadline hpc
    obtain ⟨hwaitting, hreach, hdue⟩ := h.sleeping deadline hpc
    refine ⟨hwaitting, hreach, fun t ht => ?_⟩
    obtain ⟨hold, hsame⟩ := fewer t ht
    exact (hdue t hold).trans_eq (congrArg UInt64.toNat hsame.symm)

theorem added_due {t : Ptr} {timeout : UInt64} {once : Bool} {cb : Callback} {mgr : TimerMgr.Sys}
    (h : TimerMgr.Sound r.mgr) (hadd : r.mgr.addTimer t r.now timeout once cb = some mgr) :
    mgr.mgr.Has t ∧ (mgr.mgr.timers t).mExpiredTime = r.now + timeout ∧
      ∀ u, mgr.mgr.Has u → u = t ∨ r.mgr.mgr.Has u ∧
        (mgr.mgr.timers u).mExpiredTime = (r.mgr.mgr.timers u).mExpiredTime := by
  obtain ⟨-, -, m, idx, rfl, hinserted, hx⟩ := TimerMgr.addTimer_spec h hadd
  refine ⟨(hinserted.has t).mpr (.inr rfl), by rw [hx]; rfl, fun u hu => ?_⟩
  by_cases hut : u = t
  · exact .inl hut
  · have hold := ((hinserted.has u).mp hu).resolve_right hut
    refine .inr ⟨(TimerMgr.setTimer_has _ _ _ u).mp hold, ?_⟩
    rw [(hinserted.others.alike hut).expired, TimerMgr.setTimer_of_ne _ _ hut]

/-- A timer that `addTimer` does not notify the blocked thread of. -/
theorem Sleeping.added {t : Ptr} {timeout : UInt64} {once : Bool} {cb : Callback}
    {mgr : TimerMgr.Sys} {deadline : ℕ} (h : r.Sleeping deadline) (sound : TimerMgr.Sound r.mgr)
    (hpc : r.pc = .blocked deadline false) (unheard : r.waitTime ≤ timeout)
    (fits : r.wraps (.addTimer t timeout once cb) = false)
    (hadd : r.mgr.addTimer t r.now timeout once cb = some mgr) :
    Sleeping { r with mgr } deadline := by
  obtain ⟨-, hexpired, hothers⟩ := added_due sound hadd
  refine ⟨h.waitting, h.reach, fun u hu => ?_⟩
  rcases hothers u hu with rfl | ⟨hold, hsame⟩
  · have hle := UInt64.le_iff_toNat_le.mp unheard
    have hreach := h.reach
    have hfits : r.now.toNat + timeout.toNat < 2 ^ 64 ∨ deadline ≤ (r.now + timeout).toNat := by
      simp only [wraps, hpc, unheard, decide_true, Bool.true_and, Bool.and_eq_false_iff,
        decide_eq_false_iff_not, Nat.not_le, Nat.not_lt] at fits
      exact fits
    show deadline ≤ (mgr.mgr.timers u).mExpiredTime.toNat
    rw [hexpired]
    rcases hfits with hsmall | hdue
    · rw [UInt64.toNat_add, Nat.mod_eq_of_lt hsmall]
      omega
    · exact hdue
  · exact (h.due u hold).trans_eq (congrArg UInt64.toNat hsame.symm)

theorem timely_step (h : Timely r) {a : Label} (fits : r.wraps a = false)
    (hstep : r.step a = some r') : Timely r' := by
  cases a with
  | test | wake | relock | returned =>
    obtain ⟨hmgr, hawake⟩ := own_step (by simp) hstep
    exact h.awake hmgr fun deadline => hawake deadline false
  | wait =>
    obtain ⟨-, ⟨waitTime, hsleep, rfl⟩ | ⟨-, rfl⟩⟩ := wait_eq hstep
    · refine ⟨h.sound, h.alone, fun deadline hpc => ?_⟩
      cases hpc
      exact ⟨rfl, le_refl _, fun t => sleep_due h.sound hsleep⟩
    · exact h.awake rfl (by simp)
  | schedule =>
    obtain ⟨mgr, hmgr, rfl⟩ := schedule_eq hstep
    refine ⟨(TimerMgr.step_stepped h.sound hmgr).1, ?_, by simp⟩
    refine TimerMgr.alone_step h.sound h.alone (fun j now hj => ?_) hmgr
    cases hj
    rfl
  | tick now =>
    obtain ⟨hlater, rfl⟩ := tick_eq hstep
    refine ⟨h.sound, h.alone, fun deadline hpc => ?_⟩
    obtain ⟨hwaitting, hreach, hdue⟩ := h.sleeping deadline hpc
    have hle := UInt64.le_iff_toNat_le.mp hlater
    exact ⟨hwaitting, hreach.trans (Nat.add_le_add_right hle _), hdue⟩
  | addTimer t timeout once cb =>
    obtain ⟨mgr, hmgr, hnext⟩ := addTimer_eq hstep
    have hsound : TimerMgr.Sound mgr := (TimerMgr.addTimer_stepped h.sound hmgr).1
    have halone : TimerMgr.Alone mgr thd := TimerMgr.alone_step
      (a := .addTimer t r.now timeout once cb) h.sound h.alone (by simp) hmgr
    obtain ⟨-, -, rfl⟩ | ⟨hquiet, rfl⟩ := hnext
    · refine ⟨?_, ?_, fun deadline hpc => absurd hpc (notify_awake _ deadline)⟩
      · rw [notify_mgr]
        exact hsound
      · rw [notify_mgr]
        exact halone
    · refine ⟨hsound, halone, fun deadline hpc => ?_⟩
      have hsleeping := h.sleeping deadline hpc
      have hunheard : r.waitTime ≤ timeout :=
        UInt64.not_lt.mp fun hlt => hquiet ⟨hsleeping.waitting, hlt⟩
      exact hsleeping.added h.sound hpc hunheard fits hmgr
  | cancel i t =>
    obtain ⟨-, mgr, hmgr, rfl⟩ := mayMove_eq hstep
    have halone := TimerMgr.alone_step h.sound h.alone (by simp) hmgr
    refine h.fewer (TimerMgr.step_stepped h.sound hmgr).1 halone ?_
    obtain ⟨th, -, hcall⟩ := Option.bind_eq_some_iff.mp hmgr
    split_ifs at hcall
    cases hcall
    exact .refl r.mgr.mgr
  | advance i =>
    obtain ⟨hmay, mgr, hmgr, rfl⟩ := mayMove_eq hstep
    have hsound := (TimerMgr.step_stepped h.sound hmgr).1
    have halone := TimerMgr.alone_step h.sound h.alone (by simp) hmgr
    by_cases hi : i = thd
    · refine ⟨hsound, halone, fun deadline hpc => ?_⟩
      simp [mayMove, hi, show r.pc = .blocked deadline false from hpc] at hmay
    · exact h.fewer hsound halone
        (TimerMgr.advance_fewer h.sound (fun th hth => h.alone i th hi hth) hmgr)
  | stop =>
    obtain rfl | ⟨-, rfl⟩ | ⟨hawake, rfl⟩ := stop_eq hstep
    · exact h
    · exact h.awake (notify_mgr _) (notify_awake _)
    · refine h.awake rfl fun deadline hpc => ?_
      cases hawake.symm.trans (h.sleeping deadline hpc).waitting

theorem not_punctual (h : Timely r) {a : Label} (wraps : r.wraps a = true)
    (hstep : r.step a = some r') : ¬ Punctual r' := by
  cases a with
  | addTimer t timeout once cb =>
    simp only [TimerRoutine.wraps] at wraps
    split at wraps
    · rename_i deadline hpc
      simp only [Bool.and_eq_true, decide_eq_true_eq] at wraps
      obtain ⟨⟨hunheard, -⟩, hearly⟩ := wraps
      obtain ⟨mgr, hmgr, ⟨-, hsooner, -⟩ | ⟨-, rfl⟩⟩ := addTimer_eq hstep
      · exact absurd hsooner (UInt64.not_lt.mpr hunheard)
      obtain ⟨hhas, hexpired, -⟩ := added_due h.sound hmgr
      intro hpunctual
      have hdue := hpunctual deadline hpc t hhas
      rw [hexpired] at hdue
      omega
    · cases wraps
  | test | wait | wake | relock | schedule | returned | tick | cancel | advance | stop =>
    cases wraps

theorem timely_start (self : MgrPtr) (policy : Policy) (n : ℕ) (waitting : Bool) :
    Timely (start self policy n waitting) where
  sound := .init self policy n
  alone := by
    intro j th _ hth
    have hidle : th = ⟨.idle, .idle⟩ := List.eq_of_mem_replicate (List.mem_of_getElem? hth)
    rw [hidle]
  sleeping := fun deadline hpc => by cases hpc

/-- In a run of the timer thread, of timers added and canceled and of calls of `Stop`, the thread
never oversleeps if and only if no timer added while it is blocked wraps around unheard to a time
before it wakes. -/
theorem punctual_iff (self : MgrPtr) (policy : Policy) (n : ℕ) (waitting : Bool)
    (labels : List Label) (run : Machine.exec step (start self policy n waitting) labels = some r) :
    (∀ before after u, labels = before ++ after →
      Machine.exec step (start self policy n waitting) before = some u → u.Punctual) ↔
    Machine.tally step wraps (start self policy n waitting) labels = 0 :=
  Machine.always_iff (fun _ h => h.punctual)
    (fun _ _ _ h hfits hstep => timely_step h hfits hstep)
    (fun _ _ _ h hwraps hstep => not_punctual h hwraps hstep)
    (timely_start self policy n waitting) labels run

/-- A timer meant never to expire is due at once, and the thread sleeps for 49 days. -/
theorem overslept : ∃ r : TimerRoutine, Machine.exec step (start 1 .normal 1 false)
      [.tick 1000, .test, .wait, .addTimer 7 (-1) true 5] = some r ∧
    r.pc = .blocked 4294968295 false ∧ r.mgr.mgr.Has 7 ∧
    (r.mgr.mgr.timers 7).mExpiredTime = 999 ∧ ¬ r.Punctual := by
  have h : (Machine.exec step (start 1 .normal 1 false)
      [.tick 1000, .test, .wait, .addTimer 7 (-1) true 5]).map
        (fun r => (r.pc, r.mgr.mgr.elementsSize, r.mgr.mgr.elem 1,
          (r.mgr.mgr.timers 7).mExpiredTime)) =
      some (.blocked 4294968295 false, 1, some 7, 999) := by decide
  obtain ⟨r, hr, hview⟩ := Option.map_eq_some_iff.mp h
  simp only [Prod.mk.injEq] at hview
  obtain ⟨hpc, hsize, helem, hexpired⟩ := hview
  have hhas : r.mgr.mgr.Has 7 := ⟨1, le_refl 1, hsize.ge, helem⟩
  refine ⟨r, hr, hpc, hhas, hexpired, fun hpunctual => ?_⟩
  have hdue := hpunctual 4294968295 hpc 7 hhas
  rw [hexpired] at hdue
  exact absurd hdue (by decide)

/-- The thread is woken for a timer, and sleeps until it is due. -/
theorem slept_in_time : ∃ r : TimerRoutine, Machine.exec step (start 1 .normal 1 false)
      [.tick 1000, .test, .wait, .addTimer 7 500 true 5, .wake, .relock, .schedule, .advance 0,
        .advance 0, .returned, .test, .wait] = some r ∧
    r.pc = .blocked 1500 false ∧ r.Punctual := by
  have h : (Machine.exec step (start 1 .normal 1 false)
      [.tick 1000, .test, .wait, .addTimer 7 500 true 5, .wake, .relock, .schedule, .advance 0,
        .advance 0, .returned, .test, .wait]).map (fun r => r.pc) =
      some (.blocked 1500 false) := by decide
  obtain ⟨r, hr, hpc⟩ := Option.map_eq_some_iff.mp h
  exact ⟨r, hr, hpc, (punctual_iff 1 .normal 1 false _ hr).mpr (by decide) _ [] r
    (List.append_nil _).symm hr⟩

end TimerRoutine

end Hwnet
