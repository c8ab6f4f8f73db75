import Hwnet.TCPSocketClose
import Hwnet.TCPSocketTimeouts
import Hwnet.TCPSocketUnsent

set_option autoImplicit false

/-!
# The closures of a socket

The timer thread may queue two closures at once, and may queue one at any time; Do takes one off
the list at the start of a pass and looks at the list nowhere else.
-/
namespace Hwnet.TCPSocket

/-! ## A closed socket has no timeouts -/

theorem quenched_step {s s' : Sys} {a : Label} (h : Stepped s a s')
    (inv : s.world.sock.closed = true → Quenched s.world)
    (one : s.world.sock.closed = false → OneWorker s) (closed : s'.world.sock.closed = true) :
    Quenched s'.world := by
  cases h with
  | apiCall h =>
    cases hc : s.world.sock.closed with
    | true => exact (section_late h hc (inv hc)).2.2
    | false => exact (section_closes h hc closed).2
  | collect event idle => exact inv closed
  | disable entered => exact inv closed
  | @onActive event err locking =>
    have hsock : (onActive s.world event err).1.sock.toTimeouts = s.world.sock.toTimeouts ∧
        (onActive s.world event err).1.sock.closed = s.world.sock.closed := by
      unfold onActive
      rw [wake_eq]
      exact ⟨setReady_timeouts _ _ _, (setReady_frame _ _ _).1⟩
    have hq := inv (hsock.2.symm.trans closed)
    exact ⟨(congrArg Timeouts.sendTimeout hsock.1).trans hq.1,
      (congrArg Timeouts.recvTimeout hsock.1).trans hq.2⟩
  | post pos => exact inv closed
  | @worker k io pc o at_ move =>
    cases hc : s.world.sock.closed with
    | true => exact (move_late move hc (inv hc)).2
    | false =>
      have busy := (one hc).busy_of_task (List.getElem?_eq_some_iff.mp at_).1
      exact (move_closes move hc closed busy).2.2

theorem reachable_quenched {b : Build} {s : Sys} (h : Reachable b s)
    (closed : s.world.sock.closed = true) : Quenched s.world := by
  refine h.invariant (I := fun s => s.world.sock.closed = true → Quenched s.world) ?_ ?_ closed
  · exact fun h => by cases h
  · intro u v a run inv _ hstep
    exact quenched_step (step_stepped hstep) inv (reachable_oneWorker run)

theorem Quenched.dueClosures {w : World} (h : Quenched w) : dueClosures w = 0 := by
  have zero : ¬ (0 : UInt64) < 0 := by decide
  simp [TCPSocket.dueClosures, sendExpired, recvExpired, h.1, h.2, zero]

/-! ## At most one closure -/

/-- The timer queues a closure while another is queued, or while a timeout callback runs; or it
queues two. -/
def piles (s : Sys) : Label → Bool
  | .onTimer _ =>
    decide (0 < dueClosures s.world) &&
      (decide (1 < s.world.sock.closures.length + dueClosures s.world) ||
        s.tasks.any fun pc => !pc.runs.isEmpty)
  | _ => false

structure FewClosures (s : Sys) : Prop where
  atMost : s.world.sock.closures.length ≤ 1
  running : ∀ pc ∈ s.tasks, pc.runs ≠ [] → s.world.sock.closures = []
  closing : ∀ pc ∈ s.tasks, pc.closes = true → s.world.sock.closures = []
  busy : s.world.sock.closed = false → s.world.sock.closures ≠ [] → s.world.sock.doing = true

theorem FewClosures.init : FewClosures Sys.init where
  atMost := Nat.zero_le 1
  running := fun _ h => by cases h
  closing := fun _ h => by cases h
  busy := fun _ h => absurd rfl h

theorem FewClosures.caller {s s' : Sys} (inv : FewClosures s)
    (closures : s'.world.sock.closures = s.world.sock.closures)
    (tasks : ∃ n, s'.tasks = s.tasks ++ List.replicate n .queued)
    (closed : s'.world.sock.closed = false → s.world.sock.closed = false)
    (doing : s.world.sock.doing = true → s'.world.sock.doing = true) : FewClosures s' := by
  obtain ⟨n, hn⟩ := tasks
  have known (pc : DoPc) (hpc : pc ∈ s'.tasks) : pc ∈ s.tasks ∨ pc = .queued := by
    rw [hn] at hpc
    exact (List.mem_append.mp hpc).imp_right List.eq_of_mem_replicate
  refine ⟨closures ▸ inv.atMost, fun pc hpc hruns => ?_, fun pc hpc hcloses => ?_,
    fun opened some_ => doing (inv.busy (closed opened) (closures ▸ some_))⟩
  · rw [closures]
    rcases known pc hpc with hpc | rfl
    · exact inv.running pc hpc hruns
    · exact absurd rfl hruns
  · rw [closures]
    rcases known pc hpc with hpc | rfl
    · exact inv.closing pc hpc hcloses
    · cases hcloses

theorem register_closures (w : World) (side : Side) :
    (w.register side).sock.closures = w.sock.closures := by
  rw [World.register_eq]
  split
  · cases side <;> rfl
  · rfl

theorem watch_closures (w : World) (side : Side) :
    (w.watch side).sock.closures = w.sock.closures := by
  unfold World.watch
  split
  · exact register_closures w side
  · rfl

theorem cancelTimer_closures (w : World) :
    (cancelTimer w).sock.closures = w.sock.closures := by
  unfold cancelTimer
  split <;> rfl

theorem setTimeoutCallback_closures (w : World) (timeout : UInt64) (cb : Option Callback)
    (side : Side) : (w.setTimeoutCallback timeout cb side).sock.closures = w.sock.closures := by
  have off (timeout : UInt64) (cb : Option Callback) :
      (w.setTimeout timeout cb side).sock.closures = w.sock.closures := by cases side <;> rfl
  rw [World.setTimeoutCallback_eq]
  split_ifs
  · rfl
  · exact (register_closures _ side).trans (off _ _)
  · exact (cancelTimer_closures _).trans (off _ _)
  · exact off _ _

theorem close_closures (w : World) : (close w).1.sock.closures = w.sock.closures := by
  unfold close
  split
  · rfl
  · exact cancelTimer_closures w

/-- Only a worker clears `doing`. -/
theorem caller_busy {s s' : Sys} {a : Label} (h : Stepped s a s')
    (away : ∀ k io, a ≠ .worker k io) (busy : s.world.sock.doing = true) :
    s'.world.sock.doing = true := by
  cases h with
  | apiCall h => exact (section_busy h busy).2
  | collect | disable | post => exact busy
  | onActive err => exact (onActive_busy (w := s.world) _ err busy).2
  | worker => exact absurd rfl (away _ _)

/-- The timer queues at most the one closure, and only where none is and no callback runs. -/
theorem FewClosures.fired {s : Sys} {t : TimerId} (inv : FewClosures s)
    (quenched : s.world.sock.closed = true → Quenched s.world)
    (live : s.world.sock.closed = false → ∀ pc ∈ s.tasks, pc.closes = false)
    (few : piles s (.onTimer t) = false) : FewClosures (s.unlock (onTimer s.world t)) := by
  have hworld : (s.unlock (onTimer s.world t)).world = (onTimer s.world t).1 := rfl
  have hlen := inv.atMost
  simp only [piles, Bool.and_eq_false_imp, decide_eq_true_eq, Bool.or_eq_false_iff,
    decide_eq_false_iff_not, List.any_eq_false, Bool.not_eq_true', List.isEmpty_eq_false_iff,
    Decidable.not_not, ne_eq] at few
  by_cases due : 0 < dueClosures s.world
  · obtain ⟨hone, hrunning⟩ := few due
    have hopen : s.world.sock.closed = false := by
      cases hc : s.world.sock.closed with
      | false => rfl
      | true => exact absurd due (by rw [(quenched hc).dueClosures]; exact Nat.lt_irrefl 0)
    refine ⟨?_, fun pc hpc hruns => absurd (hrunning pc hpc) hruns, fun pc hpc hcloses => ?_, ?_⟩
    · rw [hworld, onTimer_world, List.length_append, List.length_replicate]
      omega
    · cases (live hopen pc hpc).symm.trans hcloses
    · intro _ _
      rw [hworld, onTimer_world]
      simp [due]
  · have hzero : dueClosures s.world = 0 := by omega
    refine inv.caller ?_ ⟨0, (List.append_nil _).symm⟩ (fun h => ?_) fun h => ?_
    · rw [hworld, onTimer_world, hzero]
      exact List.append_nil _
    · rw [hworld, onTimer_world] at h
      exact h
    · rw [hworld, onTimer_world]
      simp [h]

/-- A part of a pass runs the one closure there may be. -/
theorem FewClosures.pass {s : Sys} {k i : ℕ} {pc : DoPc} {o : Outcome} (inv : FewClosures s)
    (at_ : s.tasks[k]? = some pc) (pass : pc.passes = some i)
    (h : Locked (pc.entered s.world) i (pc.bound s.world) o) : FewClosures (s.resume k o) := by
  have hnone : (pc.entered s.world).sock.closures = [] := by
    have hmem := List.mem_of_getElem? at_
    cases pc with
    | lock =>
      have hlen := inv.atMost
      show s.world.sock.closures.tail = []
      rw [← List.length_eq_zero_iff, List.length_tail]
      omega
    | sendTimeout => exact inv.running _ hmem (List.cons_ne_nil _ _)
    | recvTimeout => exact inv.running _ hmem (List.cons_ne_nil _ _)
    | _ => cases pass
  have evaluated (w : World) : (evaluate w i).world.sock.closures = w.sock.closures := by
    have h := evaluate_evaluated w i
    generalize evaluate w i = o at h
    cases h <;> rfl
  have hworld : o.world.sock.closures = [] := by
    cases h with
    | claimSend | claimRecv => exact hnone
    | release => exact (evaluated _).trans hnone
    | keep => exact (evaluated _).trans hnone
  exact ⟨by simp [Sys.resume, hworld], fun _ _ _ => hworld, fun _ _ _ => hworld,
    fun _ some_ => absurd hworld some_⟩

theorem FewClosures.touched {s : Sys} {k : ℕ} {pc : DoPc} {o : Outcome} (inv : FewClosures s)
    (at_ : s.tasks[k]? = some pc) (closures : o.world.sock.closures = s.world.sock.closures)
    (next : ∀ q ∈ o.next, q.runs = [] ∧ (q.closes = true → pc.closes = true))
    (busy : o.world.sock.closed = false →
      s.world.sock.closed = false ∧ o.world.sock.doing = s.world.sock.doing) :
    FewClosures (s.resume k o) := by
  have hmem := List.mem_of_getElem? at_
  refine ⟨closures ▸ inv.atMost, fun q hq hruns => ?_, fun q hq hcloses => ?_,
    fun opened some_ => ?_⟩
  · refine closures.trans ?_
    rcases of_mem_resume hq with hq | hq
    · exact inv.running q hq hruns
    · exact absurd (next q hq).1 hruns
  · refine closures.trans ?_
    rcases of_mem_resume hq with hq | hq
    · exact inv.closing q hq hcloses
    · exact inv.closing pc hmem ((next q hq).2 hcloses)
  · obtain ⟨hopen, hdoing⟩ := busy opened
    exact hdoing.trans (inv.busy hopen (closures ▸ some_))

theorem touched_closures (w : World) (pc : DoPc) :
    (pc.touched w).closures = w.sock.closures := by
  unfold DoPc.touched
  split <;> rfl

theorem fewClosures_step {b : Build} {s s' : Sys} {a : Label} (reach : Reachable b s)
    (h : step b s a = some s') (inv : FewClosures s) (few : piles s a = false) :
    FewClosures s' := by
  have hstepped := step_stepped h
  have caller (away : ∀ k io, a ≠ .worker k io)
      (closures : s'.world.sock.closures = s.world.sock.closures)
      (tasks : ∃ n, s'.tasks = s.tasks ++ List.replicate n .queued) : FewClosures s' :=
    inv.caller closures tasks (caller_opened hstepped away) (caller_busy hstepped away)
  cases step_clocked h with
  | still away hstill tasks =>
    refine caller (fun k io ha => ?_) (congrArg Timeouts.closures hstill.timeouts) tasks
    rw [ha] at away
    cases away
  | tick d => exact caller (fun _ _ h => by cases h) rfl ⟨0, (List.append_nil _).symm⟩
  | fired =>
    exact inv.fired (reachable_quenched reach) (fun hc => (reachable_oneWorker reach hc).live) few
  | set side =>
    refine caller (fun _ _ h => ?_) (setTimeoutCallback_closures _ _ _ side)
      ⟨0, (List.append_nil _).symm⟩
    cases side <;> cases h
  | pushed side away _ push hstill tasks =>
    refine caller (fun k io ha => ?_) ?_ ⟨0, by rw [tasks, List.replicate, List.append_nil]⟩
    · rw [ha] at away
      cases away
    · exact ((congrArg Timeouts.closures hstill.timeouts).trans (watch_closures _ side)).trans
        (congrArg Timeouts.closures push.timeouts)
  | closed _ hs =>
    refine caller (fun _ _ h => by cases h) ?_ ?_
    · rw [hs]
      exact close_closures _
    · rw [hs]
      exact ⟨0, (List.append_nil _).symm⟩
  | @worker k io pc o at_ run =>
    cases pass : pc.passes with
    | some i => exact inv.pass at_ pass (doStep_locked run pass)
    | none =>
      rcases doStep_touched run pass with htouched | ⟨pc', hruns, hstays, rfl⟩
      · refine inv.touched at_ ?_ htouched.next fun opened => ?_
        · exact (congrArg Timeouts.closures htouched.timeouts).trans (touched_closures _ pc)
        · exact ⟨htouched.closed.symm.trans opened, htouched.doing⟩
      · refine inv.touched at_ (close_closures _) (fun q hq => ?_) fun opened => ?_
        · cases hq
          exact ⟨hruns, fun h => by cases hstays.symm.trans h⟩
        · cases (close_closed s.world).symm.trans opened

/-- Where the timer never queues a closure beside another or beside a running timeout callback:
an open socket that is not doing anything has no closure, and neither has one that a Do closes. -/
theorem no_closure_left {b : Build} {s : Sys}
    (h : Machine.Runs (step b) (fun s a => piles s a = false) Sys.init s) :
    (s.world.sock.closed = false → s.world.sock.doing = false → s.world.sock.closures = []) ∧
      ∀ pc ∈ s.tasks, pc.closes = true → s.world.sock.closures = [] := by
  have inv : FewClosures s := h.invariant FewClosures.init fun u v a run inv few hstep =>
    fewClosures_step run.reaches hstep inv few
  refine ⟨fun opened idle => ?_, inv.closing⟩
  by_cases hnil : s.world.sock.closures = []
  · exact hnil
  · cases idle.symm.trans (inv.busy opened hnil)

def oneClosureRun : List Label :=
  [.start, .send (some ⟨[7], 0, 1⟩) 0, .setSendTimeoutCallback 5 (some 9), .tick 6000000,
    .onTimer 0, .post, .worker 0 .again, .worker 0 .again, .worker 0 .again]

theorem no_closure_left_one : ∃ s : Sys,
    Machine.exec (Machine.guarded (fun s a => !piles s a) (step ⟨false⟩)) Sys.init oneClosureRun =
      some s ∧ timeoutReports s.world.log = [(.send, 9)] ∧ s.world.sock.closures = [] := by
  have h : (Machine.exec (Machine.guarded (fun s a => !piles s a) (step ⟨false⟩)) Sys.init
      oneClosureRun).map (fun s => (timeoutReports s.world.log, s.world.sock.closed,
        s.world.sock.doing)) = some ([(.send, 9)], false, false) := rfl
  obtain ⟨s, hs, hview⟩ := Option.map_eq_some_iff.mp h
  simp only [Prod.mk.injEq] at hview
  obtain ⟨hreports, hopen, hidle⟩ := hview
  exact ⟨s, hs, hreports, (no_closure_left (b := ⟨false⟩) (.avoiding _ hs)).1 hopen hidle⟩

def twoClosuresRun : List Label :=
  [.start, .setRecvCallback (some 1), .send (some ⟨[7], 0, 1⟩) 0, .recv (some ⟨0, 0, 1⟩),
    .setSendTimeoutCallback 5 (some 8), .setRecvTimeoutCallback 5 (some 9), .tick 6000000,
    .onTimer 0, .post, .worker 0 .again, .worker 0 .again, .worker 0 .again, .worker 0 .again]

theorem closure_left : ∃ s : Sys,
    Machine.exec (step ⟨false⟩) Sys.init twoClosuresRun = some s ∧ Reachable ⟨false⟩ s ∧
    s.tasks = [] ∧ s.posting = 0 ∧ s.world.sock.closed = false ∧ s.world.sock.doing = false ∧
    s.world.sock.closures = [0] := by
  have h : (Machine.exec (step ⟨false⟩) Sys.init twoClosuresRun).map (fun s =>
      (s.tasks, s.posting, s.world.sock.closed, s.world.sock.doing, s.world.sock.closures)) =
      some ([], 0, false, false, [0]) := rfl
  obtain ⟨s, hs, hview⟩ := Option.map_eq_some_iff.mp h
  simp only [Prod.mk.injEq] at hview
  exact ⟨s, hs, Machine.Reaches.of_exec _ hs, hview⟩

end Hwnet.TCPSocket
