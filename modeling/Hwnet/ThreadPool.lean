import Hwnet.Machine

set_option autoImplicit false

/-!
# The thread pool

A queue of tasks behind a mutex and a condition variable, any number of posters, and workers that
run `threadFunc` or `threadFuncSwap`. Every critical section is one step: nothing in it can be seen
before the mutex is released.
-/
namespace Hwnet.ThreadPool

abbrev TaskPtr := Option ℕ

structure TaskQueue where
  closed : Bool
  watting : ℕ
  tasks : List TaskPtr
  deriving DecidableEq, Repr

/-- What a call of Get hands out: the tasks, or what a destroyed element happens to hold. -/
inductive Returned where
  | tasks (out : List TaskPtr)
  | destroyed
  deriving DecidableEq, Repr

/-- How a turn of the loop in Get ends: in the wait, with a null pointer or `false`, or with tasks
taken from the queue. -/
inductive Turn where
  | wait
  | finished
  | took (removed : List TaskPtr) (returned : Returned)
  deriving DecidableEq, Repr

inductive WorkerPc where
  | get
  | waiting
  | woken
  | run (tasks : List TaskPtr)
  | exited
  | crashed
  deriving DecidableEq, Repr

inductive Mode where
  | threadFunc
  | threadFuncSwap
  deriving DecidableEq, Repr

structure Worker where
  mode : Mode
  pc : WorkerPc
  deriving DecidableEq, Repr

/-! ## The queue -/

def TaskQueue.get (q : TaskQueue) : TaskQueue × Turn :=
  if q.closed then
    match q.tasks with
    | [] => (q, .finished)
    -- `task` is a reference to the element that `pop_front` destroys
    | task :: rest => ({ q with tasks := rest }, .took [task] .destroyed)
  else
    match q.tasks with
    | [] => ({ q with watting := q.watting + 1 }, .wait)
    | task :: rest => ({ q with tasks := rest }, .took [task] (.tasks [task]))

def TaskQueue.getSwap (q : TaskQueue) (out : List TaskPtr) : TaskQueue × Turn :=
  if q.closed then
    if q.tasks = [] then (q, .finished)
    else ({ q with tasks := out }, .took q.tasks (.tasks q.tasks))
  else
    if q.tasks = [] then ({ q with watting := q.watting + 1 }, .wait)
    else ({ q with tasks := out }, .took q.tasks (.tasks q.tasks))

/-- The call a worker makes; the local tasks of `threadFuncSwap` are all done then. -/
def TaskQueue.take (q : TaskQueue) : Mode → TaskQueue × Turn
  | .threadFunc => q.get
  | .threadFuncSwap => q.getSwap []

/-- Where a worker goes with what Get has ended with; a null task ends `threadFunc`. -/
def Mode.after (mode : Mode) : Turn → WorkerPc
  | .wait => .waiting
  | .finished => .exited
  | .took _ .destroyed => .crashed
  | .took _ (.tasks out) => if mode = .threadFunc ∧ out = [none] then .exited else .run out

/-! ## The pool -/

/-- The logs name the worker; `gets` are the calls of Get that have taken something. -/
structure Sys where
  queue : TaskQueue
  workers : List Worker
  accepted : List TaskPtr
  removed : List (ℕ × TaskPtr)
  gets : List (List TaskPtr × Returned)
  executed : List (ℕ × TaskPtr)
  deriving DecidableEq, Repr

def Sys.start (modes : List Mode) : Sys where
  queue := ⟨false, 0, []⟩
  workers := modes.map (⟨·, .get⟩)
  accepted := []
  removed := []
  gets := []
  executed := []

/-- `wake` is the waiting worker that `notify_one` picks, if one is needed. -/
inductive Label where
  | post (task : TaskPtr) (wake : ℕ)
  | close
  | spurious (k : ℕ)
  | advance (k : ℕ)
  deriving DecidableEq, Repr

def Worker.rouse (w : Worker) : Worker := if w.pc = .waiting then { w with pc := .woken } else w

def Sys.notifyAll (s : Sys) : Sys := { s with workers := s.workers.map Worker.rouse }

def Sys.wake (s : Sys) (k : ℕ) : Option Sys := do
  let w ← s.workers[k]?
  if w.pc = .waiting then return { s with workers := s.workers.set k w.rouse } else none

def Sys.notifyOne (s : Sys) (k : ℕ) : Option Sys :=
  if s.workers.any fun w => w.pc = .waiting then s.wake k else some s

def Sys.postTask (s : Sys) (task : TaskPtr) (wake : ℕ) : Option Sys :=
  if s.queue.closed then some s
  else
    let s := { s with
      queue := { s.queue with tasks := s.queue.tasks ++ [task] }
      accepted := s.accepted ++ [task] }
    if 0 < s.queue.watting then s.notifyOne wake else some s

def Sys.close (s : Sys) : Sys :=
  if s.queue.closed then s else { s.notifyAll with queue := { s.queue with closed := true } }

def Sys.log (s : Sys) (k : ℕ) : Turn → Sys
  | .took removed returned => { s with
    removed := s.removed ++ removed.map (k, ·)
    gets := s.gets ++ [(removed, returned)] }
  | _ => s

def Sys.turn (s : Sys) (k : ℕ) (mode : Mode) : Sys :=
  let (queue, turn) := s.queue.take mode
  { s with queue, workers := s.workers.set k ⟨mode, mode.after turn⟩ }.log k turn

def Sys.run (s : Sys) (k : ℕ) (mode : Mode) (tasks : List TaskPtr) : Option Sys :=
  match tasks with
  | [] => none
  | none :: _ => some { s with workers := s.workers.set k ⟨mode, .crashed⟩ }
  | some task :: rest => some { s with
    workers := s.workers.set k ⟨mode, if rest = [] then .get else .run rest⟩
    executed := s.executed ++ [(k, some task)] }

def step (s : Sys) : Label → Option Sys
  | .post task wake => s.postTask task wake
  | .close => some s.close
  | .spurious k => s.wake k
  | .advance k => do
    let w ← s.workers[k]?
    match w.pc with
    | .get => return s.turn k w.mode
    | .woken => return { s with queue.watting := s.queue.watting - 1 }.turn k w.mode
    | .run tasks => s.run k w.mode tasks
    | .waiting | .exited | .crashed => none

abbrev Reachable (modes : List Mode) : Sys → Prop := Machine.Reaches step (Sys.start modes)

/-! ## What a turn of Get can do -/

inductive Taken (q : TaskQueue) : TaskQueue × Turn → Prop where
  | finished (closed : q.closed = true) (empty : q.tasks = []) : Taken q (q, .finished)
  | wait (opened : q.closed = false) (empty : q.tasks = []) :
      Taken q ({ q with watting := q.watting + 1 }, .wait)
  | took (removed rest : List TaskPtr) (returned : Returned) (split : q.tasks = removed ++ rest) :
      Taken q ({ q with tasks := rest }, .took removed returned)

theorem get_taken (q : TaskQueue) : Taken q q.get := by
  obtain ⟨closed, watting, tasks⟩ := q
  cases tasks with
  | nil =>
    cases closed with
    | true => exact .finished rfl rfl
    | false => exact .wait rfl rfl
  | cons task rest =>
    cases closed with
    | true => exact .took [task] rest .destroyed rfl
    | false => exact .took [task] rest (.tasks [task]) rfl

theorem getSwap_taken (q : TaskQueue) : Taken q (q.getSwap []) := by
  obtain ⟨closed, watting, tasks⟩ := q
  cases tasks with
  | nil =>
    cases closed with
    | true => exact .finished rfl rfl
    | false => exact .wait rfl rfl
  | cons task rest =>
    have hsplit : task :: rest = (task :: rest) ++ [] := (List.append_nil _).symm
    cases closed with
    | true => exact .took (task :: rest) [] (.tasks (task :: rest)) hsplit
    | false => exact .took (task :: rest) [] (.tasks (task :: rest)) hsplit

theorem take_taken (q : TaskQueue) (mode : Mode) : Taken q (q.take mode) := by
  cases mode with
  | threadFunc => exact get_taken q
  | threadFuncSwap => exact getSwap_taken q

/-! ## What a step can do -/

def Roused (l l' : List Worker) : Prop :=
  ∀ k : ℕ, l'[k]? = l[k]? ∨
    ∃ mode, l[k]? = some ⟨mode, .waiting⟩ ∧ l'[k]? = some ⟨mode, .woken⟩

theorem Roused.refl (l : List Worker) : Roused l l := fun _ => .inl rfl

theorem roused_set {l : List Worker} {k : ℕ} {mode : Mode} (h : l[k]? = some ⟨mode, .waiting⟩) :
    Roused l (l.set k ⟨mode, .woken⟩) := by
  intro j
  by_cases hkj : k = j
  · subst hkj
    have hlen := (List.getElem?_eq_some_iff.mp h).1
    exact .inr ⟨mode, h, List.getElem?_set_self hlen⟩
  · exact .inl (List.getElem?_set_ne hkj)

theorem roused_map (l : List Worker) : Roused l (l.map Worker.rouse) := by
  intro k
  rw [List.getElem?_map]
  cases h : l[k]? with
  | none => exact .inl rfl
  | some w =>
    obtain ⟨mode, pc⟩ := w
    cases pc with
    | waiting => exact .inr ⟨mode, rfl, rfl⟩
    | _ => exact .inl rfl

inductive Stepped (s : Sys) : Label → Sys → Prop where
  | refused {a : Label} : Stepped s a s
  | posted {a : Label} (task : TaskPtr) {l : List Worker} (opened : s.queue.closed = false)
      (roused : Roused s.workers l) : Stepped s a { s with
        queue := { s.queue with tasks := s.queue.tasks ++ [task] }
        accepted := s.accepted ++ [task]
        workers := l }
  | closed {a : Label} {l : List Worker} (roused : Roused s.workers l) : Stepped s a { s with
      queue := { s.queue with closed := true }
      workers := l }
  | roused {a : Label} {l : List Worker} (roused : Roused s.workers l) :
      Stepped s a { s with workers := l }
  | turn {k : ℕ} {mode : Mode} {pc : WorkerPc} (watting : ℕ) (at_ : s.workers[k]? = some ⟨mode, pc⟩)
      (awake : pc = .get ∨ pc = .woken) :
      Stepped s (.advance k) ({ s with queue.watting := watting }.turn k mode)
  | ran {k : ℕ} {mode : Mode} {task : ℕ} {rest : List TaskPtr}
      (at_ : s.workers[k]? = some ⟨mode, .run (some task :: rest)⟩) :
      Stepped s (.advance k) { s with
        workers := s.workers.set k ⟨mode, if rest = [] then .get else .run rest⟩
        executed := s.executed ++ [(k, some task)] }
  | crashed {k : ℕ} {mode : Mode} {rest : List TaskPtr}
      (at_ : s.workers[k]? = some ⟨mode, .run (none :: rest)⟩) : Stepped s (.advance k) { s with
        workers := s.workers.set k ⟨mode, .crashed⟩ }

theorem wake_roused {s s' : Sys} {k : ℕ} (h : s.wake k = some s') :
    ∃ l, Roused s.workers l ∧ s' = { s with workers := l } := by
  obtain ⟨⟨mode, pc⟩, hw, h⟩ := Option.bind_eq_some_iff.mp h
  split_ifs at h with hwaiting
  obtain rfl : pc = .waiting := hwaiting
  exact ⟨_, roused_set hw, (Option.some.inj h).symm⟩

theorem notifyOne_roused {s s' : Sys} {k : ℕ} (h : s.notifyOne k = some s') :
    ∃ l, Roused s.workers l ∧ s' = { s with workers := l } := by
  unfold Sys.notifyOne at h
  split at h
  · exact wake_roused h
  · exact ⟨s.workers, .refl _, (Option.some.inj h).symm⟩

theorem step_stepped {s s' : Sys} {a : Label} (hstep : step s a = some s') : Stepped s a s' := by
  cases a with
  | post task wake =>
    simp only [step, Sys.postTask] at hstep
    split_ifs at hstep with hclosed hwaits
    · exact Option.some.inj hstep ▸ .refused
    · obtain ⟨l, hl, rfl⟩ := notifyOne_roused hstep
      exact .posted task (Bool.not_eq_true _ ▸ hclosed) hl
    · exact Option.some.inj hstep ▸ .posted task (Bool.not_eq_true _ ▸ hclosed) (.refl _)
  | close =>
    rw [← Option.some.inj hstep]
    unfold Sys.close
    split
    · exact .refused
    · exact .closed (roused_map _)
  | spurious k =>
    obtain ⟨l, hl, rfl⟩ := wake_roused hstep
    exact .roused hl
  | advance k =>
    obtain ⟨⟨mode, pc⟩, hw, hstep⟩ := Option.bind_eq_some_iff.mp hstep
    cases pc with
    | get =>
      rw [← Option.some.inj hstep]
      exact .turn s.queue.watting hw (.inl rfl)
    | woken =>
      rw [← Option.some.inj hstep]
      exact .turn (s.queue.watting - 1) hw (.inr rfl)
    | run tasks =>
      rcases tasks with - | ⟨- | task, rest⟩
      · cases hstep
      · rw [← Option.some.inj hstep]
        exact .crashed hw
      · rw [← Option.some.inj hstep]
        exact .ran hw
    | waiting | exited | crashed => cases hstep

/-! ## First in, first out -/

def Fifo (s : Sys) : Prop := s.removed.map Prod.snd ++ s.queue.tasks = s.accepted

theorem Fifo.turn {s : Sys} (h : Fifo s) (k : ℕ) (mode : Mode) : Fifo (s.turn k mode) := by
  have htaken := take_taken s.queue mode
  unfold Sys.turn
  cases htake : s.queue.take mode with
  | mk queue turn =>
    rw [htake] at htaken
    cases htaken with
    | finished closed empty => exact h
    | wait opened empty => exact h
    | took removed rest returned split =>
      have hmap : (removed.map fun task => (k, task)).map Prod.snd = removed := by
        simp [Function.comp_def]
      show (s.removed ++ removed.map (k, ·)).map Prod.snd ++ rest = s.accepted
      rw [List.map_append, hmap, List.append_assoc, ← split]
      exact h

theorem fifo_step {s s' : Sys} {a : Label} (h : Fifo s) (hs : Stepped s a s') : Fifo s' := by
  cases hs with
  | posted task opened roused =>
    show s.removed.map Prod.snd ++ (s.queue.tasks ++ [task]) = s.accepted ++ [task]
    rw [← List.append_assoc]
    exact congrArg (· ++ [task]) h
  | turn watting at_ awake =>
    exact Fifo.turn (s := { s with queue.watting := watting }) h _ _
  | _ => exact h

/-! ## Each task once -/

/-- The element that `Get()` would take is null, or would be destroyed before it is read. -/
def TaskQueue.spoiled (q : TaskQueue) : Bool :=
  match q.tasks with
  | [] => false
  | task :: _ => q.closed || task.isNone

def badTake (s : Sys) : Label → Bool
  | .advance k =>
    match s.workers[k]? with
    | some ⟨.threadFunc, .get⟩ | some ⟨.threadFunc, .woken⟩ => s.queue.spoiled
    | some ⟨_, .run (none :: _)⟩ => true
    | _ => false
  | _ => false

def hand (l : List Worker) (k : ℕ) : List TaskPtr :=
  match l[k]? with
  | some ⟨_, .run tasks⟩ => tasks
  | _ => []

def ofWorker (k : ℕ) (log : List (ℕ × TaskPtr)) : List TaskPtr :=
  (log.filter fun e => e.1 = k).map Prod.snd

structure Served (s : Sys) : Prop where
  whole : ∀ g ∈ s.gets, g.2 = .tasks g.1
  exited : ∀ (k : ℕ) (mode : Mode), s.workers[k]? = some ⟨mode, .exited⟩ →
    s.queue.closed = true ∧ s.queue.tasks = []
  done : ∀ k, ofWorker k s.executed ++ hand s.workers k = ofWorker k s.removed

theorem ofWorker_append (k : ℕ) (l l' : List (ℕ × TaskPtr)) :
    ofWorker k (l ++ l') = ofWorker k l ++ ofWorker k l' := by
  simp [ofWorker]

theorem ofWorker_map (k j : ℕ) (tasks : List TaskPtr) :
    ofWorker k (tasks.map (j, ·)) = if j = k then tasks else [] := by
  induction tasks with
  | nil => simp [ofWorker]
  | cons task tasks ih =>
    by_cases hjk : j = k
    · simp_all [ofWorker]
    · simp_all [ofWorker]

theorem hand_set {l : List Worker} {k : ℕ} {w : Worker} (h : l[k]? = some w) (x : Worker) (j : ℕ) :
    hand (l.set k x) j = if k = j then hand [x] 0 else hand l j := by
  by_cases hkj : k = j
  · subst hkj
    have hlen := (List.getElem?_eq_some_iff.mp h).1
    simp [hand, List.getElem?_set_self hlen]
  · simp [hand, hkj]

theorem Roused.hand {l l' : List Worker} (h : Roused l l') (k : ℕ) :
    ThreadPool.hand l' k = ThreadPool.hand l k := by
  unfold ThreadPool.hand
  rcases h k with hsame | ⟨mode, hwaiting, hwoken⟩
  · rw [hsame]
  · rw [hwaiting, hwoken]

theorem Roused.exited {l l' : List Worker} (h : Roused l l') {k : ℕ} {mode : Mode}
    (hk : l'[k]? = some ⟨mode, .exited⟩) : l[k]? = some ⟨mode, .exited⟩ := by
  rcases h k with hsame | ⟨mode', -, hwoken⟩
  · exact hsame ▸ hk
  · rw [hwoken] at hk
    cases hk

/-- The logs are where they were and no worker has come by tasks or gone. -/
theorem Served.roused {s s' : Sys} (h : Served s) (gets : s'.gets = s.gets)
    (executed : s'.executed = s.executed) (removed : s'.removed = s.removed)
    (roused : Roused s.workers s'.workers)
    (queue : s.queue.closed = true ∧ s.queue.tasks = [] →
      s'.queue.closed = true ∧ s'.queue.tasks = []) : Served s' where
  whole := gets ▸ h.whole
  exited := fun k mode hk => queue (h.exited k mode (roused.exited hk))
  done := by
    intro k
    rw [executed, removed, roused.hand]
    exact h.done k

theorem take_took {q q' : TaskQueue} {mode : Mode} {removed : List TaskPtr} {returned : Returned}
    (h : q.take mode = (q', .took removed returned))
    (good : mode = .threadFunc → q.spoiled = false) :
    returned = .tasks removed ∧ mode.after (.took removed returned) = .run removed := by
  obtain ⟨closed, watting, tasks⟩ := q
  cases mode with
  | threadFunc =>
    have hgood := good rfl
    cases tasks with
    | nil => cases closed <;> cases h
    | cons task rest =>
      cases closed with
      | true => cases hgood
      | false =>
        cases h
        cases task with
        | none => cases hgood
        | some task => exact ⟨rfl, rfl⟩
  | threadFuncSwap =>
    cases tasks with
    | nil => cases closed <;> cases h
    | cons task rest => cases closed <;> (cases h; exact ⟨rfl, rfl⟩)

/-- Worker `k` has moved; what it has in hand and what it has run make up what it has taken. -/
theorem Served.moved {s s' : Sys} (h : Served s) {k : ℕ} {w x : Worker}
    (at_ : s.workers[k]? = some w) (workers : s'.workers = s.workers.set k x)
    (whole : ∀ g ∈ s'.gets, g.2 = .tasks g.1)
    (queue : s.queue.closed = true ∧ s.queue.tasks = [] →
      s'.queue.closed = true ∧ s'.queue.tasks = [])
    (exits : x.pc = .exited → s'.queue.closed = true ∧ s'.queue.tasks = [])
    (done : ofWorker k s'.executed ++ hand [x] 0 = ofWorker k s'.removed)
    (others : ∀ j, k ≠ j → ofWorker j s'.executed = ofWorker j s.executed ∧
      ofWorker j s'.removed = ofWorker j s.removed) : Served s' := by
  refine ⟨whole, fun j mode hj => ?_, fun j => ?_⟩
  · rw [workers] at hj
    rcases Machine.of_getElem?_set hj with ⟨-, hx⟩ | ⟨-, hj⟩
    · exact exits (by rw [← hx])
    · exact queue (h.exited j mode hj)
  · rw [workers, hand_set at_]
    by_cases hkj : k = j
    · subst hkj
      rw [if_pos rfl]
      exact done
    · rw [if_neg hkj, (others j hkj).1, (others j hkj).2]
      exact h.done j

theorem Served.turn {s : Sys} (h : Served s) {k : ℕ} {mode : Mode} {pc : WorkerPc}
    (at_ : s.workers[k]? = some ⟨mode, pc⟩) (awake : pc = .get ∨ pc = .woken)
    (good : mode = .threadFunc → s.queue.spoiled = false) : Served (s.turn k mode) := by
  have hnone : hand s.workers k = [] := by
    rcases awake with rfl | rfl <;> simp [hand, at_]
  have hdone : ofWorker k s.executed = ofWorker k s.removed := by
    rw [← h.done k, hnone, List.append_nil]
  have htaken := take_taken s.queue mode
  unfold Sys.turn
  cases htake : s.queue.take mode with
  | mk queue turn =>
    rw [htake] at htaken
    cases htaken with
    | finished closed empty =>
      refine h.moved at_ rfl h.whole id (fun _ => ⟨closed, empty⟩) ?_ fun j _ => ⟨rfl, rfl⟩
      exact (List.append_nil _).trans hdone
    | wait opened empty =>
      refine h.moved at_ rfl h.whole id nofun ?_ fun j _ => ⟨rfl, rfl⟩
      exact (List.append_nil _).trans hdone
    | took removed rest returned split =>
      obtain ⟨hreturned, hafter⟩ := take_took htake good
      refine h.moved (x := ⟨mode, .run removed⟩) at_ ?_ ?_ ?_ nofun ?_ fun j hkj => ⟨rfl, ?_⟩
      · show s.workers.set k ⟨mode, mode.after _⟩ = _
        rw [hafter]
      · intro g hg
        rcases List.mem_append.mp hg with hg | hg
        · exact h.whole g hg
        · rw [List.mem_singleton.mp hg]
          exact hreturned
      · rintro ⟨hclosed, hempty⟩
        rw [split] at hempty
        exact ⟨hclosed, (List.append_eq_nil_iff.mp hempty).2⟩
      · show ofWorker k s.executed ++ removed = ofWorker k (s.removed ++ removed.map (k, ·))
        rw [ofWorker_append, ofWorker_map, if_pos rfl, hdone]
      · show ofWorker j (s.removed ++ removed.map (k, ·)) = ofWorker j s.removed
        rw [ofWorker_append, ofWorker_map, if_neg hkj, List.append_nil]

theorem served_step {s s' : Sys} {a : Label} (h : Served s) (hs : Stepped s a s')
    (good : badTake s a = false) : Served s' := by
  cases hs with
  | refused => exact h
  | posted task opened roused =>
    refine h.roused rfl rfl rfl roused fun hclosed => ?_
    rw [opened] at hclosed
    cases hclosed.1
  | closed roused => exact h.roused rfl rfl rfl roused fun hclosed => ⟨rfl, hclosed.2⟩
  | roused roused => exact h.roused rfl rfl rfl roused id
  | @turn k mode pc watting at_ awake =>
    have hserved : Served { s with queue.watting := watting } := ⟨h.whole, h.exited, h.done⟩
    refine hserved.turn at_ awake fun hmode => ?_
    have hgood : s.queue.spoiled = false := by
      rcases awake with rfl | rfl <;> simpa [badTake, at_, hmode] using good
    exact hgood
  | @ran k mode task rest at_ =>
    have hhand : hand s.workers k = some task :: rest := by simp [hand, at_]
    refine h.moved at_ rfl h.whole id ?_ ?_ fun j hkj => ⟨?_, rfl⟩
    · split <;> exact nofun
    · have hrest : hand [⟨mode, if rest = [] then .get else .run rest⟩] 0 = rest := by
        split
        · rename_i hempty
          exact hempty.symm
        · rfl
      have hone : ofWorker k [(k, some task)] = [some task] := by simp [ofWorker]
      rw [hrest, ofWorker_append, hone, List.append_assoc, ← h.done k, hhand]
      rfl
    · rw [ofWorker_append]
      simp [ofWorker, hkj]
  | @crashed k mode rest at_ =>
    simp [badTake, at_] at good

/-! ## Tasks are taken in order and run once -/

theorem fifo_runs {modes : List Mode} {s : Sys} {ok : Sys → Label → Prop}
    (h : Machine.Runs step ok (Sys.start modes) s) : Fifo s :=
  h.invariant (I := Fifo) rfl fun _ _ _ _ hu _ hstep => fifo_step hu (step_stepped hstep)

theorem Served.start (modes : List Mode) : Served (Sys.start modes) := by
  have hget {k : ℕ} {w : Worker} (hw : (Sys.start modes).workers[k]? = some w) : w.pc = .get := by
    simp only [Sys.start, List.getElem?_map, Option.map_eq_some_iff] at hw
    obtain ⟨mode, -, rfl⟩ := hw
    rfl
  refine ⟨nofun, fun k mode hk => ?_, fun k => ?_⟩
  · cases hget hk
  · show [] ++ hand (Sys.start modes).workers k = []
    cases hk : (Sys.start modes).workers[k]? with
    | none => simp [hand, hk]
    | some w =>
      obtain ⟨mode, pc⟩ := w
      obtain rfl : pc = .get := hget hk
      simp [hand, hk]

/-- Where no worker takes a task that is null, and none takes one through `Get()` from a closed
queue: tasks are taken in the order in which they were accepted, every call of Get returns what it
has removed, a worker goes only when the queue is closed and empty, and each runs what it has taken,
in order. -/
theorem tasks_once {modes : List Mode} {s : Sys}
    (h : Machine.Runs step (fun s a => badTake s a = false) (Sys.start modes) s) :
    s.removed.map Prod.snd ++ s.queue.tasks = s.accepted ∧
    (∀ g ∈ s.gets, g.2 = .tasks g.1) ∧
    (∀ (k : ℕ) (mode : Mode), s.workers[k]? = some ⟨mode, .exited⟩ →
      s.queue.closed = true ∧ s.queue.tasks = []) ∧
    ∀ k, ofWorker k s.executed ++ hand s.workers k = ofWorker k s.removed := by
  have inv : Served s := by
    refine h.invariant (I := Served) (.start modes) fun u v a _ hu good hstep => ?_
    exact served_step hu (step_stepped hstep) good
  exact ⟨fifo_runs h, inv.whole, inv.exited, inv.done⟩

def drainRun : List Label :=
  [.advance 0, .post (some 1) 0, .advance 0, .post (some 2) 0, .post (some 3) 0, .close, .advance 1,
    .advance 0, .advance 1, .advance 1, .advance 0, .advance 1]

theorem tasks_once_drained : ∃ s : Sys,
    Machine.exec (Machine.guarded (fun s a => !badTake s a) step)
      (Sys.start [.threadFunc, .threadFuncSwap]) drainRun = some s ∧
    s.workers = [⟨.threadFunc, .exited⟩, ⟨.threadFuncSwap, .exited⟩] ∧
    s.executed = [(0, some 1), (1, some 2), (1, some 3)] ∧
    s.removed.map Prod.snd ++ s.queue.tasks = s.accepted ∧
    (∀ g ∈ s.gets, g.2 = .tasks g.1) ∧
    (∀ (k : ℕ) (mode : Mode), s.workers[k]? = some ⟨mode, .exited⟩ →
      s.queue.closed = true ∧ s.queue.tasks = []) ∧
    ∀ k, ofWorker k s.executed ++ hand s.workers k = ofWorker k s.removed := by
  have h : (Machine.exec (Machine.guarded (fun s a => !badTake s a) step)
      (Sys.start [.threadFunc, .threadFuncSwap]) drainRun).map (fun s => (s.workers, s.executed)) =
      some ([⟨.threadFunc, .exited⟩, ⟨.threadFuncSwap, .exited⟩],
        [(0, some 1), (1, some 2), (1, some 3)]) := rfl
  obtain ⟨s, hs, hview⟩ := Option.map_eq_some_iff.mp h
  simp only [Prod.mk.injEq] at hview
  exact ⟨s, hs, hview.1, hview.2, tasks_once (.avoiding drainRun hs)⟩

def destroyedRun : List Label := [.post (some 1) 0, .close, .advance 0]

theorem get_destroyed : ∃ s : Sys,
    Machine.exec step (Sys.start [.threadFunc]) destroyedRun = some s ∧
    Reachable [.threadFunc] s ∧ s.accepted = [some 1] ∧ s.removed = [(0, some 1)] ∧
    s.gets = [([some 1], .destroyed)] ∧ ¬ ∀ g ∈ s.gets, g.2 = .tasks g.1 := by
  have h : (Machine.exec step (Sys.start [.threadFunc]) destroyedRun).map
      (fun s => (s.accepted, s.removed, s.gets)) =
      some ([some 1], [(0, some 1)], [([some 1], .destroyed)]) := rfl
  obtain ⟨s, hs, hview⟩ := Option.map_eq_some_iff.mp h
  simp only [Prod.mk.injEq] at hview
  obtain ⟨haccepted, hremoved, hgets⟩ := hview
  refine ⟨s, hs, Machine.Reaches.of_exec destroyedRun hs, haccepted, hremoved, hgets, ?_⟩
  rw [hgets]
  simp

end Hwnet.ThreadPool
