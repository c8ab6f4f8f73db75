import Mathlib.Data.Int.Notation
import Hwnet.ThreadPool

set_option autoImplicit false

/-!
# No wake-up is lost

`PostTask` notifies only when `watting` is positive, and a woken worker leaves that count only when
it has the mutex again, so the count is the sleepers and the woken together. A task is notified for
as long as anybody sleeps: while a worker sleeps, each queued task has a worker of its own that is
on its way to the queue.
-/
namespace Hwnet.ThreadPool

def init (threadCount swapMode : ℤ) : List Mode :=
  .replicate (if threadCount ≤ 0 then 1 else threadCount.toNat)
    (if swapMode = 0 then .threadFunc else .threadFuncSwap)

theorem init_ne_nil (threadCount swapMode : ℤ) : init threadCount swapMode ≠ [] := by
  unfold init
  rw [Ne, List.replicate_eq_nil_iff]
  split <;> omega

def Worker.blocked (w : Worker) : Bool := w.pc = .waiting

def Worker.woken (w : Worker) : Bool := w.pc = .woken

def Worker.coming (w : Worker) : Bool := w.pc = .get || w.pc = .woken

/-- `watting` counts the blocked and the woken; while any is blocked, no task is without a worker
that comes for it. -/
structure Attended (queue : TaskQueue) (workers : List Worker) : Prop where
  counted : queue.watting = workers.countP Worker.blocked + workers.countP Worker.woken
  served : workers.countP Worker.blocked = 0 ∨
    queue.tasks.length ≤ workers.countP Worker.coming
  closed : queue.closed = true → workers.countP Worker.blocked = 0

theorem wake_counts {s s' : Sys} {k : ℕ} (h : s.wake k = some s') : s'.queue = s.queue ∧
    s'.workers.countP Worker.blocked + 1 = s.workers.countP Worker.blocked ∧
    s'.workers.countP Worker.woken = s.workers.countP Worker.woken + 1 ∧
    s'.workers.countP Worker.coming = s.workers.countP Worker.coming + 1 := by
  obtain ⟨⟨mode, pc⟩, hw, h⟩ := Option.bind_eq_some_iff.mp h
  split_ifs at h with hwaiting
  obtain rfl : pc = .waiting := hwaiting
  obtain rfl := Option.some.inj h
  have hcount (p : Worker → Bool) := Machine.countP_set_add p hw ⟨mode, .woken⟩
  exact ⟨rfl, hcount Worker.blocked, hcount Worker.woken, hcount Worker.coming⟩

theorem notifyOne_wakes {s s' : Sys} {k : ℕ} (h : s.notifyOne k = some s') :
    s.workers.countP Worker.blocked = 0 ∧ s' = s ∨ s.wake k = some s' := by
  unfold Sys.notifyOne at h
  split_ifs at h with hany
  · exact .inr h
  · refine .inl ⟨List.countP_eq_zero.mpr fun w hw => ?_, (Option.some.inj h).symm⟩
    simp only [List.any_eq_true, not_exists, not_and] at hany
    exact hany w hw

theorem rouse_counts (l : List Worker) :
    (l.map Worker.rouse).countP Worker.blocked = 0 ∧
    (l.map Worker.rouse).countP Worker.woken =
      l.countP Worker.blocked + l.countP Worker.woken := by
  induction l with
  | nil => exact ⟨rfl, rfl⟩
  | cons w l ih =>
    obtain ⟨mode, pc⟩ := w
    simp only [List.map_cons, List.countP_cons, ih.1, ih.2]
    cases pc <;> simp [Worker.rouse, Worker.blocked, Worker.woken] <;> omega

theorem take_shrinks {q q' : TaskQueue} {mode : Mode} {removed : List TaskPtr}
    {returned : Returned} (h : q.take mode = (q', .took removed returned)) :
    q'.tasks.length < q.tasks.length := by
  obtain ⟨closed, watting, tasks⟩ := q
  cases tasks with
  | nil => cases mode <;> cases closed <;> cases h
  | cons task rest => cases mode <;> cases closed <;> (cases h; simp)

theorem after_took (mode : Mode) (removed : List TaskPtr) (returned : Returned) :
    Worker.blocked ⟨mode, mode.after (.took removed returned)⟩ = false ∧
    Worker.woken ⟨mode, mode.after (.took removed returned)⟩ = false ∧
    Worker.coming ⟨mode, mode.after (.took removed returned)⟩ = false := by
  cases returned with
  | destroyed => exact ⟨rfl, rfl, rfl⟩
  | tasks out =>
    unfold Mode.after
    dsimp only
    split <;> exact ⟨rfl, rfl, rfl⟩

theorem Attended.posted {queue : TaskQueue} {workers : List Worker} (h : Attended queue workers)
    (task : TaskPtr) (asleep : workers.countP Worker.blocked = 0) :
    Attended { queue with tasks := queue.tasks ++ [task] } workers :=
  ⟨h.counted, .inl asleep, fun _ => asleep⟩

theorem Attended.woken {s s' : Sys} {k : ℕ} (h : s.wake k = some s')
    (counted : s.queue.watting =
      s.workers.countP Worker.blocked + s.workers.countP Worker.woken)
    (served : s.queue.tasks.length ≤ s.workers.countP Worker.coming + 1)
    (closed : s.queue.closed = true → s.workers.countP Worker.blocked = 0) :
    Attended s'.queue s'.workers := by
  obtain ⟨hqueue, hblocked, hwoken, hcoming⟩ := wake_counts h
  rw [hqueue]
  refine ⟨by omega, .inr (by omega), fun hclosed => ?_⟩
  have := closed hclosed
  omega

/-- A turn of the loop in Get; `watting` is the count without the worker. -/
theorem Attended.turn {s : Sys} {k watting : ℕ} {w : Worker} (h : Attended s.queue s.workers)
    (at_ : s.workers[k]? = some w) (awake : w.coming = true) (unblocked : w.blocked = false)
    (count : s.queue.watting = watting + w.woken.toNat) :
    Attended ({ s with queue.watting := watting }.turn k w.mode).queue
      ({ s with queue.watting := watting }.turn k w.mode).workers := by
  have hcount (p : Worker → Bool) (x : Worker) := Machine.countP_set_add p at_ x
  have hserved := h.served
  have hcounted := h.counted
  have htaken := take_taken { s.queue with watting } w.mode
  unfold Sys.turn
  cases htake : { s.queue with watting }.take w.mode with
  | mk queue turn =>
    rw [htake] at htaken
    have hb := hcount Worker.blocked ⟨w.mode, w.mode.after turn⟩
    have hw := hcount Worker.woken ⟨w.mode, w.mode.after turn⟩
    have hc := hcount Worker.coming ⟨w.mode, w.mode.after turn⟩
    rw [unblocked] at hb
    rw [awake] at hc
    cases htaken with
    | finished closed empty =>
      have hzero := h.closed closed
      have hx : Worker.blocked ⟨w.mode, w.mode.after .finished⟩ = false := rfl
      have hx' : Worker.woken ⟨w.mode, w.mode.after .finished⟩ = false := rfl
      rw [hx] at hb
      rw [hx'] at hw
      simp only [Bool.toNat_false] at hb hw
      refine ⟨?_, .inl ?_, fun _ => ?_⟩ <;> dsimp only [Sys.log] <;> omega
    | wait opened empty =>
      have hx : Worker.blocked ⟨w.mode, w.mode.after .wait⟩ = true := rfl
      have hx' : Worker.woken ⟨w.mode, w.mode.after .wait⟩ = false := rfl
      rw [hx] at hb
      rw [hx'] at hw
      simp only [Bool.toNat_false, Bool.toNat_true] at hb hw
      refine ⟨?_, .inr ?_, fun hclosed => ?_⟩
      · dsimp only [Sys.log]
        omega
      · dsimp only [Sys.log]
        dsimp only at empty
        rw [empty]
        exact Nat.zero_le _
      · cases opened.symm.trans hclosed
    | took removed rest returned split =>
      obtain ⟨hx, hx', hx''⟩ := after_took w.mode removed returned
      have hless := take_shrinks htake
      rw [hx] at hb
      rw [hx'] at hw
      rw [hx''] at hc
      simp only [Bool.toNat_false, Bool.toNat_true] at hb hw hc hless
      refine ⟨?_, ?_, fun hclosed => ?_⟩
      · dsimp only [Sys.log]
        omega
      · dsimp only [Sys.log]
        omega
      · have := h.closed hclosed
        dsimp only [Sys.log]
        omega

/-- A worker that is neither blocked nor woken moves on, perhaps to the queue. -/
theorem Attended.aside {queue : TaskQueue} {workers : List Worker} (h : Attended queue workers)
    {k : ℕ} {w x : Worker} (at_ : workers[k]? = some w) (away : w.coming = false)
    (before : w.blocked = false ∧ w.woken = false) (after : x.blocked = false ∧ x.woken = false) :
    Attended queue (workers.set k x) := by
  have hcount (p : Worker → Bool) := Machine.countP_set_add p at_ x
  have hb := hcount Worker.blocked
  have hw := hcount Worker.woken
  have hc := hcount Worker.coming
  rw [before.1, after.1] at hb
  rw [before.2, after.2] at hw
  rw [away] at hc
  simp only [Bool.toNat_false] at hb hw hc
  have hserved := h.served
  have hcounted := h.counted
  refine ⟨by omega, by omega, fun hclosed => ?_⟩
  have := h.closed hclosed
  omega

theorem attended_step {s s' : Sys} {a : Label} (h : Attended s.queue s.workers)
    (hstep : step s a = some s') : Attended s'.queue s'.workers := by
  have hserved := h.served
  have hcounted := h.counted
  cases a with
  | post task wake =>
    simp only [step, Sys.postTask] at hstep
    split_ifs at hstep with hclosed hwaits
    · exact Option.some.inj hstep ▸ h
    · rcases notifyOne_wakes hstep with ⟨hasleep, rfl⟩ | hwake
      · exact h.posted task hasleep
      · by_cases hasleep : s.workers.countP Worker.blocked = 0
        · have := (wake_counts hwake).2.1
          dsimp only at this
          omega
        · refine Attended.woken hwake h.counted ?_ h.closed
          dsimp only
          rw [List.length_append, List.length_singleton]
          omega
    · obtain rfl := Option.some.inj hstep
      exact h.posted task (by omega)
  | close =>
    obtain rfl := Option.some.inj hstep
    unfold Sys.close
    split
    · exact h
    · obtain ⟨hb, hw⟩ := rouse_counts s.workers
      exact ⟨by dsimp only [Sys.notifyAll]; omega, .inl hb, fun _ => hb⟩
  | spurious k =>
    have := (wake_counts hstep).2.1
    exact Attended.woken hstep h.counted (by omega) h.closed
  | advance k =>
    obtain ⟨⟨mode, pc⟩, hw, hstep⟩ := Option.bind_eq_some_iff.mp hstep
    cases pc with
    | get =>
      obtain rfl := Option.some.inj hstep
      exact h.turn hw rfl rfl rfl
    | woken =>
      obtain rfl := Option.some.inj hstep
      have hpos := Machine.countP_pos_of_getElem? Worker.woken hw rfl
      refine h.turn hw rfl rfl ?_
      show s.queue.watting = s.queue.watting - 1 + 1
      omega
    | run tasks =>
      rcases tasks with - | ⟨- | task, rest⟩
      · cases hstep
      · obtain rfl := Option.some.inj hstep
        exact h.aside hw rfl ⟨rfl, rfl⟩ ⟨rfl, rfl⟩
      · obtain rfl := Option.some.inj hstep
        refine h.aside hw rfl ⟨rfl, rfl⟩ ?_
        split <;> exact ⟨rfl, rfl⟩
    | waiting | exited | crashed => cases hstep

theorem attended_start (modes : List Mode) :
    Attended (Sys.start modes).queue (Sys.start modes).workers := by
  have hget : ∀ w ∈ (Sys.start modes).workers, w.pc = .get := by
    intro w hw
    obtain ⟨mode, -, rfl⟩ := List.mem_map.mp hw
    rfl
  have hb : (Sys.start modes).workers.countP Worker.blocked = 0 :=
    List.countP_eq_zero.mpr fun w hw => by simp [Worker.blocked, hget w hw]
  have hw : (Sys.start modes).workers.countP Worker.woken = 0 :=
    List.countP_eq_zero.mpr fun w hw => by simp [Worker.woken, hget w hw]
  exact ⟨by rw [hb, hw]; rfl, .inl hb, fun _ => hb⟩

theorem wake_length {s s' : Sys} {k : ℕ} (h : s.wake k = some s') :
    s'.workers.length = s.workers.length := by
  obtain ⟨w, -, h⟩ := Option.bind_eq_some_iff.mp h
  split_ifs at h
  obtain rfl := Option.some.inj h
  exact List.length_set

theorem turn_length (s : Sys) (k : ℕ) (mode : Mode) :
    (s.turn k mode).workers.length = s.workers.length := by
  unfold Sys.turn
  cases s.queue.take mode with
  | mk queue turn => cases turn <;> exact List.length_set

theorem step_length {s s' : Sys} {a : Label} (hstep : step s a = some s') :
    s'.workers.length = s.workers.length := by
  cases a with
  | post task wake =>
    simp only [step, Sys.postTask] at hstep
    split_ifs at hstep
    · exact Option.some.inj hstep ▸ rfl
    · rcases notifyOne_wakes hstep with ⟨-, rfl⟩ | hwake
      · rfl
      · have := wake_length hwake
        exact this
    · exact Option.some.inj hstep ▸ rfl
  | close =>
    obtain rfl := Option.some.inj hstep
    unfold Sys.close
    split
    · rfl
    · exact List.length_map _
  | spurious k => exact wake_length hstep
  | advance k =>
    obtain ⟨⟨mode, pc⟩, -, hstep⟩ := Option.bind_eq_some_iff.mp hstep
    cases pc with
    | get | woken =>
      obtain rfl := Option.some.inj hstep
      exact turn_length _ _ _
    | run tasks =>
      rcases tasks with - | ⟨- | task, rest⟩
      · cases hstep
      all_goals
        obtain rfl := Option.some.inj hstep
        exact List.length_set
    | waiting | exited | crashed => cases hstep

/-- While there is something to do, not every worker is blocked: either none is, or each queued
task has a worker of its own on the way to the queue. -/
theorem no_lost_wakeup {modes : List Mode} {s : Sys} (h : Reachable modes s)
    (inhabited : modes ≠ []) (work : s.queue.tasks ≠ [] ∨ s.queue.closed = true) :
    (¬ ∀ w ∈ s.workers, w.pc = .waiting) ∧
    ((∀ w ∈ s.workers, w.pc ≠ .waiting) ∨
      s.queue.tasks.length ≤ s.workers.countP Worker.coming) := by
  have inv : Attended s.queue s.workers :=
    h.invariant (I := fun s => Attended s.queue s.workers) (attended_start modes)
      fun _ _ _ _ hu _ hstep => attended_step hu hstep
  have hlen : s.workers.length = modes.length := by
    refine h.invariant (I := fun s => s.workers.length = modes.length) (List.length_map _) ?_
    intro u v a _ hu _ hstep
    exact (step_length hstep).trans hu
  have hpos := List.length_pos_iff.mpr inhabited
  have hasleep : s.workers.countP Worker.blocked = 0 → ∀ w ∈ s.workers, w.pc ≠ .waiting := by
    intro hzero w hw hpc
    exact List.countP_eq_zero.mp hzero w hw (by simp [Worker.blocked, hpc])
  refine ⟨fun hall => ?_, inv.served.imp_left hasleep⟩
  -- all blocked: then none is on its way, and the count of the blocked is not zero
  have hblocked : s.workers.countP Worker.blocked = s.workers.length :=
    List.countP_eq_length.mpr fun w hw => by simp [Worker.blocked, hall w hw]
  have hcoming : s.workers.countP Worker.coming = 0 :=
    List.countP_eq_zero.mpr fun w hw => by simp [Worker.coming, hall w hw]
  rcases work with htasks | hclosed
  · have := List.length_pos_iff.mpr htasks
    have := inv.served
    omega
  · have := inv.closed hclosed
    omega

/-- A second task is posted before the worker notified of the first has the mutex, while another
worker is blocked. -/
theorem no_lost_wakeup_second : ∃ s : Sys,
    Machine.exec step (Sys.start (init 2 0))
      [.advance 0, .advance 1, .post (some 1) 0, .post (some 2) 1] = some s ∧
    s.workers = [⟨.threadFunc, .woken⟩, ⟨.threadFunc, .woken⟩] ∧
    ((¬ ∀ w ∈ s.workers, w.pc = .waiting) ∧
    ((∀ w ∈ s.workers, w.pc ≠ .waiting) ∨
      s.queue.tasks.length ≤ s.workers.countP Worker.coming)) := by
  have h : (Machine.exec step (Sys.start (init 2 0))
      [.advance 0, .advance 1, .post (some 1) 0, .post (some 2) 1]).map
      (fun s => (s.workers, s.queue.tasks)) =
      some ([⟨.threadFunc, .woken⟩, ⟨.threadFunc, .woken⟩], [some 1, some 2]) := rfl
  obtain ⟨s, hs, hview⟩ := Option.map_eq_some_iff.mp h
  simp only [Prod.mk.injEq] at hview
  refine ⟨s, hs, hview.1, ?_⟩
  refine no_lost_wakeup (Machine.Reaches.of_exec _ hs) (init_ne_nil 2 0) (.inl ?_)
  rw [hview.2]
  exact List.cons_ne_nil _ _

end Hwnet.ThreadPool
