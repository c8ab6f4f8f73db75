import Hwnet.TimerThreadSteps

set_option autoImplicit false

/-!
# The timer thread

`TimerRoutine` has a thread that waits for the first timer of its manager and then runs `Schedule`.
It is thread 0 of the manager, and no other thread runs `Schedule`. Each reading of the clock is one
step with the section that follows it; the test of `stoped` is a step without the mutex.
-/
namespace Hwnet

namespace TimerRoutine

open Timer

/-- Where the timer thread stands. `deadline` is the time `wait_for` was called with, as an absolute
one; `notified` is whether there is a notification it has yet to wake from. -/
inductive Pc where
  | test
  | wait
  | blocked (deadline : ℕ) (notified : Bool)
  | woken
  | schedule
  | scheduling
  | exited
  deriving DecidableEq, Repr

end TimerRoutine

structure TimerRoutine where
  mgr : TimerMgr.Sys
  stoped : Bool
  waitting : Bool
  waitTime : UInt64
  now : UInt64
  pc : TimerRoutine.Pc

namespace TimerRoutine

open Timer

def thd : ThreadId := 0

def start (self : MgrPtr) (policy : Policy) (n : ℕ) (waitting : Bool) : TimerRoutine where
  mgr := .init self policy n
  stoped := false
  waitting
  waitTime := 0xFFFFFFFF
  now := 0
  pc := .test

inductive Label where
  | test
  | wait
  | wake
  | relock
  | schedule
  | returned
  | tick (now : UInt64)
  | addTimer (t : Ptr) (timeout : UInt64) (once : Bool) (cb : Callback)
  | cancel (i : ThreadId) (t : Ptr)
  | advance (i : ThreadId)
  | stop
  deriving DecidableEq, Repr

def notify (r : TimerRoutine) : TimerRoutine :=
  match r.pc with
  | .blocked deadline _ => { r with pc := .blocked deadline true }
  | _ => r

def block (r : TimerRoutine) (waitTime : UInt64) : TimerRoutine :=
  { r with
    waitting := true
    waitTime
    pc := .blocked (r.now.toNat + waitTime.toNat) false }

def sleep (r : TimerRoutine) : Option (Option UInt64) :=
  if r.mgr.mgr.elementsSize = 0 then some (some 0xFFFFFFFF)
  else do
    let top ← r.mgr.mgr.top
    let expired := (r.mgr.mgr.timers top).mExpiredTime
    return if r.now < expired then some (expired - r.now) else none

/-- `wait` up to where it gives up the mutex. -/
def wait (r : TimerRoutine) : Option TimerRoutine :=
  if r.mgr.mtx ≠ none then none
  else r.sleep.map fun
    | some waitTime => r.block waitTime
    | none => { r with waitting := false, pc := .schedule }

def addTimer (r : TimerRoutine) (t : Ptr) (timeout : UInt64) (once : Bool) (cb : Callback) :
    Option TimerRoutine :=
  (r.mgr.addTimer t r.now timeout once cb).map fun mgr =>
    let r := { r with mgr }
    if r.waitting ∧ timeout < r.waitTime then { r with waitTime := timeout }.notify else r

def stop (r : TimerRoutine) : Option TimerRoutine :=
  if r.mgr.mtx ≠ none then none
  else if r.stoped then some r
  else
    let r := { r with stoped := true }
    some (if r.waitting then r.notify else r)

/-- The timer thread is in its manager's code only inside `Schedule`. -/
def mayMove (r : TimerRoutine) (i : ThreadId) : Bool := i ≠ thd || r.pc = .scheduling

def moveMgr (r : TimerRoutine) (a : TimerMgr.Label) : Option TimerRoutine :=
  (TimerMgr.step r.mgr a).map fun mgr => { r with mgr }

def step (r : TimerRoutine) : Label → Option TimerRoutine
  | .test =>
    if r.pc = .test then some { r with pc := if r.stoped then .exited else .wait } else none
  | .wait => if r.pc = .wait then r.wait else none
  | .wake =>
    match r.pc with
    | .blocked _ _ => some { r with pc := .woken }
    | _ => none
  | .relock =>
    if r.pc = .woken ∧ r.mgr.mtx = none then
      some { r with waitting := false, pc := .schedule }
    else none
  | .schedule =>
    if r.pc = .schedule then
      (r.moveMgr (.schedule thd r.now)).map fun r => { r with pc := .scheduling }
    else none
  | .returned =>
    if r.pc = .scheduling ∧ r.mgr.threads[thd]? = some ⟨.idle, .idle⟩ then
      some { r with pc := .test }
    else none
  | .tick now => if r.now ≤ now then some { r with now } else none
  | .addTimer t timeout once cb => r.addTimer t timeout once cb
  | .cancel i t => if r.mayMove i then r.moveMgr (.cancel i t) else none
  | .advance i => if r.mayMove i then r.moveMgr (.advance i) else none
  | .stop => r.stop

/-! ## Stop -/

def Stoppable (r : TimerRoutine) : Prop :=
  r.stoped = true → ∀ deadline, r.pc ≠ .blocked deadline false

def strands (r : TimerRoutine) : Label → Bool
  | .wait => r.stoped && r.sleep.join.isSome
  | _ => false

structure Watchful (r : TimerRoutine) : Prop where
  waitting : ∀ deadline notified, r.pc = .blocked deadline notified → r.waitting = true
  stoppable : r.Stoppable

variable {r r' : TimerRoutine}

theorem notify_eq (r : TimerRoutine) : ∃ pc, r.notify = { r with pc } ∧
    (pc = r.pc ∧ (∀ deadline notified, pc ≠ .blocked deadline notified) ∨
      ∃ deadline notified, r.pc = .blocked deadline notified ∧ pc = .blocked deadline true) := by
  unfold notify
  split
  · rename_i deadline notified hpc
    exact ⟨_, rfl, .inr ⟨deadline, notified, hpc, rfl⟩⟩
  · rename_i hpc
    exact ⟨r.pc, rfl, .inl ⟨rfl, hpc⟩⟩

theorem wait_eq (hstep : r.step .wait = some r') : r.pc = .wait ∧
    ((∃ waitTime, r.sleep = some (some waitTime) ∧ r' = r.block waitTime) ∨
      r.sleep = some none ∧ r' = { r with waitting := false, pc := .schedule }) := by
  simp only [step] at hstep
  split_ifs at hstep with hpc
  unfold wait at hstep
  split_ifs at hstep
  obtain ⟨waitTime, hsleep, hr⟩ := Option.map_eq_some_iff.mp hstep
  cases waitTime with
  | some waitTime => exact ⟨hpc, .inl ⟨waitTime, hsleep, hr.symm⟩⟩
  | none => exact ⟨hpc, .inr ⟨hsleep, hr.symm⟩⟩

theorem moveMgr_eq {a : TimerMgr.Label} (hmove : r.moveMgr a = some r') :
    ∃ mgr, TimerMgr.step r.mgr a = some mgr ∧ r' = { r with mgr } := by
  obtain ⟨mgr, hmgr, hr⟩ := Option.map_eq_some_iff.mp hmove
  exact ⟨mgr, hmgr, hr.symm⟩

/-- After these steps of its own the thread is awake, and has not touched the manager. -/
theorem own_step {a : Label} (own : a ∈ [.test, .wake, .relock, .returned])
    (hstep : r.step a = some r') :
    r'.mgr = r.mgr ∧ ∀ deadline notified, r'.pc ≠ .blocked deadline notified := by
  simp only [List.mem_cons, List.not_mem_nil, or_false] at own
  rcases own with rfl | rfl | rfl | rfl
  · simp only [step] at hstep
    split_ifs at hstep <;> (cases hstep; exact ⟨rfl, by simp⟩)
  · simp only [step] at hstep
    split at hstep <;> cases hstep
    exact ⟨rfl, by simp⟩
  · simp only [step] at hstep
    split_ifs at hstep
    cases hstep
    exact ⟨rfl, by simp⟩
  · simp only [step] at hstep
    split_ifs at hstep
    cases hstep
    exact ⟨rfl, by simp⟩

theorem schedule_eq (hstep : r.step .schedule = some r') :
    ∃ mgr, TimerMgr.step r.mgr (.schedule thd r.now) = some mgr ∧
      r' = { r with mgr, pc := .scheduling } := by
  simp only [step] at hstep
  split_ifs at hstep
  obtain ⟨u, hmove, rfl⟩ := Option.map_eq_some_iff.mp hstep
  obtain ⟨mgr, hmgr, rfl⟩ := moveMgr_eq hmove
  exact ⟨mgr, hmgr, rfl⟩

theorem tick_eq {now : UInt64} (hstep : r.step (.tick now) = some r') :
    r.now ≤ now ∧ r' = { r with now } := by
  simp only [step] at hstep
  split_ifs at hstep with hlater
  cases hstep
  exact ⟨hlater, rfl⟩

/-- `addTimer` notifies the thread of a timer that expires before it would wake by itself. -/
theorem addTimer_eq {t : Ptr} {timeout : UInt64} {once : Bool} {cb : Callback}
    (hstep : r.step (.addTimer t timeout once cb) = some r') :
    ∃ mgr, r.mgr.addTimer t r.now timeout once cb = some mgr ∧
      ((r.waitting = true ∧ timeout < r.waitTime ∧
          r' = { r with mgr, waitTime := timeout }.notify) ∨
        ¬(r.waitting = true ∧ timeout < r.waitTime) ∧ r' = { r with mgr }) := by
  obtain ⟨mgr, hmgr, rfl⟩ := Option.map_eq_some_iff.mp hstep
  refine ⟨mgr, hmgr, ?_⟩
  dsimp only
  split_ifs with hsooner
  · exact .inl ⟨hsooner.1, hsooner.2, rfl⟩
  · exact .inr ⟨hsooner, rfl⟩

theorem stop_eq (hstep : r.step .stop = some r') :
    r' = r ∨ (r.waitting = true ∧ r' = { r with stoped := true }.notify) ∨
      r.waitting = false ∧ r' = { r with stoped := true } := by
  simp only [step, stop] at hstep
  split_ifs at hstep with hlocked hstoped hwaitting
  · cases hstep
    exact .inl rfl
  · cases hstep
    exact .inr (.inl ⟨hwaitting, rfl⟩)
  · cases hstep
    exact .inr (.inr ⟨Bool.eq_false_of_not_eq_true hwaitting, rfl⟩)

/-- The calls of `cancel` and the turns of the threads stay with the manager. -/
theorem mayMove_eq {i : ThreadId} {a : TimerMgr.Label}
    (hstep : (if r.mayMove i then r.moveMgr a else none) = some r') :
    r.mayMove i = true ∧ ∃ mgr, TimerMgr.step r.mgr a = some mgr ∧ r' = { r with mgr } := by
  split_ifs at hstep with hmay
  exact ⟨hmay, moveMgr_eq hstep⟩

/-- Nothing of the thread has changed but the manager and the clock. -/
theorem Watchful.aside (h : Watchful r) (mgr : TimerMgr.Sys) (now : UInt64) :
    Watchful { r with mgr, now } :=
  ⟨h.waitting, h.stoppable⟩

theorem watchful_awake (h : ∀ deadline notified, r.pc ≠ .blocked deadline notified) :
    Watchful r :=
  ⟨fun deadline notified hpc => absurd hpc (h deadline notified),
    fun _ deadline => h deadline false⟩

theorem Watchful.notify (h : Watchful r) (waitTime : UInt64) (stoped : Bool) :
    Watchful { r with waitTime, stoped }.notify := by
  obtain ⟨pc, hnotify, ⟨rfl, hawake⟩ | ⟨deadline, notified, hpc, rfl⟩⟩ :=
    notify_eq { r with waitTime, stoped }
  · rw [hnotify]
    exact watchful_awake hawake
  · rw [hnotify]
    exact ⟨fun _ _ _ => h.waitting deadline notified hpc, fun _ _ => nofun⟩

theorem watchful_step (h : Watchful r) {a : Label} (heeds : r.strands a = false)
    (hstep : r.step a = some r') : Watchful r' := by
  cases a with
  | test | wake | relock | returned => exact watchful_awake (own_step (by simp) hstep).2
  | wait =>
    obtain ⟨-, ⟨waitTime, hsleep, rfl⟩ | ⟨-, rfl⟩⟩ := wait_eq hstep
    · have hgoing : r.stoped = false := by
        simpa [strands, hsleep] using heeds
      refine ⟨fun _ _ _ => rfl, fun hstop => ?_⟩
      cases hgoing.symm.trans hstop
    · exact watchful_awake (by simp)
  | schedule =>
    obtain ⟨mgr, -, rfl⟩ := schedule_eq hstep
    exact watchful_awake (by simp)
  | tick now =>
    obtain ⟨-, rfl⟩ := tick_eq hstep
    exact h.aside r.mgr now
  | addTimer t timeout once cb =>
    obtain ⟨mgr, -, ⟨-, -, rfl⟩ | ⟨-, rfl⟩⟩ := addTimer_eq hstep
    · exact (h.aside mgr r.now).notify timeout r.stoped
    · exact h.aside mgr r.now
  | cancel i t | advance i =>
    obtain ⟨-, mgr, -, rfl⟩ := mayMove_eq hstep
    exact h.aside mgr r.now
  | stop =>
    obtain rfl | ⟨-, rfl⟩ | ⟨hawake, rfl⟩ := stop_eq hstep
    · exact h
    · exact h.notify r.waitTime true
    · refine watchful_awake fun deadline notified hpc => ?_
      cases hawake.symm.trans (h.waitting deadline notified hpc)

theorem not_stoppable {a : Label} (strands : r.strands a = true)
    (hstep : r.step a = some r') : ¬ r'.Stoppable := by
  cases a with
  | wait =>
    simp only [TimerRoutine.strands, Bool.and_eq_true] at strands
    obtain ⟨hstoped, hblocks⟩ := strands
    obtain ⟨-, ⟨waitTime, -, rfl⟩ | ⟨hsleep, -⟩⟩ := wait_eq hstep
    · exact fun h => h hstoped _ rfl
    · rw [hsleep] at hblocks
      cases hblocks
  | test | wake | relock | schedule | returned | tick | addTimer | cancel | advance | stop =>
    cases strands

/-- In a run of the timer thread, of timers added and canceled and of calls of `Stop`, the thread is
never blocked for good after `Stop` if and only if `wait` never blocks after `stoped` was set. -/
theorem stoppable_iff (self : MgrPtr) (policy : Policy) (n : ℕ) (waitting : Bool)
    (labels : List Label) (run : Machine.exec step (start self policy n waitting) labels = some r) :
    (∀ before after u, labels = before ++ after →
      Machine.exec step (start self policy n waitting) before = some u → u.Stoppable) ↔
    Machine.tally step strands (start self policy n waitting) labels = 0 :=
  Machine.always_iff (fun _ h => h.stoppable)
    (fun _ _ _ h heeds hstep => watchful_step h heeds hstep)
    (fun _ _ _ _ hstrands hstep => not_stoppable hstrands hstep)
    (watchful_awake fun _ _ => by simp [start]) labels run

/-- `Stop` comes between the test of `stoped` and the `wait`, and finds nobody to notify. -/
theorem stop_lost : ∃ r : TimerRoutine,
    Machine.exec step (start 1 .normal 2 false) [.test, .stop, .wait] = some r ∧
    r.stoped = true ∧ r.pc = .blocked 4294967295 false ∧ ¬ r.Stoppable := by
  have h : (Machine.exec step (start 1 .normal 2 false) [.test, .stop, .wait]).map
      (fun r => (r.stoped, r.pc)) = some (true, .blocked 4294967295 false) := by decide
  obtain ⟨r, hr, hview⟩ := Option.map_eq_some_iff.mp h
  simp only [Prod.mk.injEq] at hview
  exact ⟨r, hr, hview.1, hview.2, fun hstops => hstops hview.1 _ hview.2⟩

/-- `Stop` comes when the thread is blocked. -/
theorem stop_heard : ∃ r : TimerRoutine, Machine.exec step (start 1 .normal 2 false)
      [.test, .wait, .stop, .wake, .relock, .schedule, .advance 0, .advance 0, .returned, .test] =
        some r ∧ r.pc = .exited ∧ r.Stoppable := by
  have h : (Machine.exec step (start 1 .normal 2 false)
      [.test, .wait, .stop, .wake, .relock, .schedule, .advance 0, .advance 0, .returned,
        .test]).map (fun r => r.pc) = some .exited := by decide
  obtain ⟨r, hr, hpc⟩ := Option.map_eq_some_iff.mp h
  exact ⟨r, hr, hpc, (stoppable_iff 1 .normal 2 false _ hr).mpr (by decide) _ [] r
    (List.append_nil _).symm hr⟩

end TimerRoutine

end Hwnet
