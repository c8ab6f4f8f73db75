import Hwnet.TCPSocketUnsent

set_option autoImplicit false

/-!
# The flush callback

It is called once for each section after a successful writev that finds nothing unsent.
SendAndClose closes the socket from there, hence only where a flush callback is set.
-/
namespace Hwnet.TCPSocket

def Obs.isFlush : Obs → Bool
  | .flushCallback _ => true
  | _ => false

def DoPc.callsFlush : DoPc → Bool
  | .sendAction _ (.callFlushCallback _ _) => true
  | _ => false

/-- The flush callbacks called, and those decided on. -/
def flushCalls (s : Sys) : ℕ :=
  s.world.log.countP Obs.isFlush + s.tasks.countP DoPc.callsFlush

/-- The section that follows a successful writev. -/
def followsUp (s : Sys) : Label → Bool
  | .worker k _ =>
    match s.tasks[k]? with
    | some (.written _ _ _ (.ok _) _ _) => true
    | _ => false
  | _ => false

def allWritten (s : Sys) : Bool :=
  decide (acceptedBytes s.world.log = writtenBytes s.world.log)

def flushSet (s : Sys) (a : Label) : Bool := !followsUp s a || s.world.sock.flushCallback.isSome

/-! ## Which callbacks are called -/

def Obs.flushOf (p : Callback → Bool) : Obs → Bool
  | .flushCallback cb => p cb
  | _ => false

def DoPc.flushOf (p : Callback → Bool) : DoPc → Bool
  | .sendAction _ (.callFlushCallback cb _) => p cb
  | _ => false

def flushesOf (p : Callback → Bool) (s : Sys) : ℕ :=
  s.world.log.countP (Obs.flushOf p) + s.tasks.countP (DoPc.flushOf p)

variable (p : Callback → Bool)

theorem flushCalls_eq (s : Sys) : flushCalls s = flushesOf (fun _ => true) s := by
  have hlog : Obs.isFlush = Obs.flushOf fun _ => true := by
    funext o
    cases o <;> rfl
  have htasks : DoPc.callsFlush = DoPc.flushOf fun _ => true := by
    funext pc
    cases pc with
    | sendAction i act => cases act <;> rfl
    | _ => rfl
  rw [flushCalls, hlog, htasks, flushesOf]

theorem flushOf_of_not {pc : DoPc} (h : pc.callsFlush = false) : pc.flushOf p = false := by
  cases pc with
  | sendAction i act => cases act <;> first | rfl | cases h
  | _ => rfl

theorem followsUp_caller {s : Sys} {a : Label} (h : a.caller = true) : followsUp s a = false := by
  cases a <;> first | rfl | cases h

theorem followsUp_worker {s : Sys} {k : ℕ} {io : Io} {pc : DoPc} (at_ : s.tasks[k]? = some pc)
    (h : pc.sends = false) : followsUp s (.worker k io) = false := by
  simp only [followsUp, at_]
  cases pc <;> first | rfl | cases h

theorem followsUp_away {s : Sys} {a : Label} (away : ∀ k io pc, a = .worker k io →
    s.tasks[k]? = some pc → pc.tracked = false) : followsUp s a = false := by
  cases a with
  | worker k io =>
    cases hpc : s.tasks[k]? with
    | none => simp [followsUp, hpc]
    | some pc =>
      refine followsUp_worker hpc ?_
      cases hs : pc.sends with
      | false => rfl
      | true => exact (sends_tracked hs).symm.trans (away k io pc rfl hpc)
  | _ => rfl

theorem flushesOf_resume {s : Sys} {k : ℕ} {pc q : DoPc} {o : Outcome}
    (at_ : s.tasks[k]? = some pc) (next : o.next = some q) :
    flushesOf p (s.resume k o) + (pc.flushOf p).toNat =
      o.world.log.countP (Obs.flushOf p) + s.tasks.countP (DoPc.flushOf p) +
        (q.flushOf p).toNat := by
  have hcount := Machine.countP_set_add (DoPc.flushOf p) at_ q
  have htasks : (s.resume k o).tasks = s.tasks.set k q := by simp only [Sys.resume, next]
  rw [flushesOf, htasks, Nat.add_assoc, hcount, Nat.add_assoc]
  rfl

theorem flushesOf_same {s : Sys} {k : ℕ} {pc q : DoPc} {w : World} (at_ : s.tasks[k]? = some pc)
    (log : w.log.countP (Obs.flushOf p) = s.world.log.countP (Obs.flushOf p))
    (before : pc.callsFlush = false) (after : q.callsFlush = false) :
    flushesOf p (s.resume k (goto w q)) = flushesOf p s := by
  have hcount := flushesOf_resume p (o := goto w q) at_ rfl
  rw [flushOf_of_not p before, flushOf_of_not p after, Bool.toNat_false, Nat.add_zero,
    Nat.add_zero] at hcount
  exact hcount.trans (congrArg (· + _) log)

theorem note_flushes (w : World) (o : Obs) :
    (w.note o).log.countP (Obs.flushOf p) =
      w.log.countP (Obs.flushOf p) + (o.flushOf p).toNat := by
  rw [World.note, List.countP_append]
  cases h : o.flushOf p <;> simp [h]

theorem flushesOf_called {s : Sys} {k i : ℕ} {q : DoPc} {cb : Callback} {last : Bool}
    (at_ : s.tasks[k]? = some (.sendAction i (.callFlushCallback cb last)))
    (after : q.callsFlush = false) :
    flushesOf p (s.resume k (goto (s.world.note (.flushCallback cb)) q)) = flushesOf p s := by
  have hcount := flushesOf_resume p (o := goto (s.world.note (.flushCallback cb)) q) at_ rfl
  have hlog : (goto (s.world.note (.flushCallback cb)) q).world.log.countP (Obs.flushOf p) =
      s.world.log.countP (Obs.flushOf p) + (p cb).toNat := note_flushes p _ _
  have hbefore : flushesOf p s =
    s.world.log.countP (Obs.flushOf p) + s.tasks.countP (DoPc.flushOf p) := rfl
  rw [flushOf_of_not p after, hlog, DoPc.flushOf, Bool.toNat_false] at hcount
  omega

theorem countP_filter_tracked (l : List DoPc) :
    (l.filter DoPc.tracked).countP (DoPc.flushOf p) = l.countP (DoPc.flushOf p) := by
  rw [List.countP_filter]
  refine List.countP_congr fun pc _ => ?_
  have tracked : pc.flushOf p = true → pc.tracked = true := by
    intro h
    cases pc with
    | sendAction i act => cases act <;> first | rfl | cases h
    | _ => cases h
  simpa using tracked

theorem Aside.flushes {w w' : World} (h : Aside w w') :
    w'.log.countP (Obs.flushOf p) = w.log.countP (Obs.flushOf p) := by
  obtain ⟨l, hl, hf⟩ := h.log
  have hzero : l.countP (Obs.flushOf p) = 0 := List.countP_eq_zero.mpr fun o ho => by
    have := hf o ho
    cases o <;> first | exact Bool.false_ne_true | cases this
  rw [hl, List.countP_append, hzero, Nat.add_zero]

/-- The section decides on a flush callback where it finds nothing unsent, and only there. -/
theorem followUp_flushes {w : World} {i n total : ℕ} {j : Fin 2} {ver : BitVec 32} {null : Bool}
    {o : Outcome} (move : Move w (.written i j ver (.ok n) total null) o)
    (rest : Rest o.world.outgoing) :
    ∃ q, o.next = some q ∧
      q.flushOf p = (decide (acceptedBytes o.world.log = writtenBytes o.world.log) &&
        w.sock.flushCallback.any p) ∧
      o.world.log.countP (Obs.flushOf p) = w.log.countP (Obs.flushOf p) := by
  obtain ⟨-, -, -, -, hempty, hmore⟩ := move_followUp move
  by_cases hlist : o.world.sock.ptrSendlist = []
  · obtain ⟨hlog, hnext⟩ := hempty hlist
    refine ⟨_, hnext, ?_, ?_⟩
    · rw [decide_eq_true (rest.sent_iff.mp hlist), Bool.true_and]
      cases w.sock.flushCallback <;> rfl
    · rw [hlog, List.countP_append]
      split <;> rfl
  · obtain ⟨hlog, hnext⟩ := hmore hlist
    refine ⟨_, hnext, ?_, by rw [hlog]⟩
    rw [decide_eq_false (hlist ∘ rest.sent_iff.mpr), Bool.false_and]
    rfl

theorem markShutdown_flushes (w : World) :
    (markShutdown w).log.countP (Obs.flushOf p) = w.log.countP (Obs.flushOf p) := by
  unfold markShutdown
  dsimp only
  split
  · exact note_flushes p _ _
  · rfl

/-- A task that sends and does not follow up has nothing to do with the flush callback. -/
theorem writes_elsewhere {w : World} {pc : DoPc} {o : Outcome} (move : Move w pc o)
    (sends : pc.sends = true) (pending : pc.unaccounted = false) :
    ∃ w' q, o = goto w' q ∧ q.callsFlush = false ∧
      ∀ p, w'.log.countP (Obs.flushOf p) = w.log.countP (Obs.flushOf p) := by
  cases move with
  | writevAll => exact ⟨_, _, rfl, rfl, fun p => note_flushes p _ _⟩
  | writevPart => exact ⟨_, _, rfl, rfl, fun p => note_flushes p _ _⟩
  | writevError => exact ⟨_, _, rfl, rfl, fun p => note_flushes p _ _⟩
  | writtenOk => cases pending
  | quiet hq | idle hq | leave hq | closing hq => exact absurd hq (DoPc.sends_not_quiet sends)
  | _ => first | exact ⟨_, _, rfl, rfl, fun _ => rfl⟩ | cases sends

theorem writes_flushes {s : Sys} {pc : DoPc} {o : Outcome} {io : Io} (inv : Unsent s)
    (inv' : Unsent (s.resume 0 o)) (one : s.tasks = [pc]) (sends : pc.sends = true)
    (move : Move s.world pc o) :
    flushesOf p (s.resume 0 o) = flushesOf p s +
      (followsUp s (.worker 0 io) && allWritten s && s.world.sock.flushCallback.any p).toNat := by
  have at_ : s.tasks[0]? = some pc := by rw [one]; rfl
  have hbefore : pc.callsFlush = false := by cases pc <;> first | rfl | cases sends
  cases hpending : pc.unaccounted with
  | false =>
    obtain ⟨w', q, rfl, hafter, hlog⟩ := writes_elsewhere move sends hpending
    have hfollows : followsUp s (.worker 0 io) = false := by
      simp only [followsUp, at_]
      cases pc with
      | written i j ver io total null => cases io <;> first | rfl | cases hpending
      | _ => rfl
    rw [hfollows, flushesOf_same p at_ (hlog p) hbefore hafter]
    rfl
  | true =>
    obtain ⟨i, j, ver, n, total, null, rfl⟩ := unaccounted_eq hpending
    have hfollows : followsUp s (.worker 0 io) = true := by simp only [followsUp, at_]
    obtain ⟨q, hq, hcalls, hlog⟩ := followUp_flushes p move (inv.rest inv' one move)
    have hcount := flushesOf_resume p at_ hq
    obtain ⟨hacc, hwritten⟩ := written_accepted move
    rw [flushOf_of_not p hbefore, hcalls, hlog, hacc, hwritten, Bool.toNat_false,
      Nat.add_zero] at hcount
    rw [hfollows, Bool.true_and]
    exact hcount

/-- A flush callback is decided on or called for just the sections that find nothing unsent, and
it is the one in the slot. -/
theorem flushesOf_step {s s' : Sys} {a : Label} (h : SendStep s a s') (inv : Unsent s ∨ Late s)
    (alone' : Alone s') :
    flushesOf p s' = flushesOf p s +
      (followsUp s a && allWritten s && s.world.sock.flushCallback.any p).toNat := by
  cases h with
  | aside world away tasks closing =>
    rw [followsUp_away away, flushesOf, world.flushes, ← countP_filter_tracked p s'.tasks, tasks,
      countP_filter_tracked]
    rfl
  | sent caller buff len last pos opened write more world tasks =>
    rw [followsUp_caller caller, flushesOf, world.flushes, tasks, queueSend, note_flushes]
    rfl
  | shutdown opened write =>
    rw [followsUp_caller rfl, flushesOf]
    exact congrArg (· + _) (markShutdown_flushes p s.world)
  | take at_ can =>
    rw [followsUp_worker at_ rfl]
    exact flushesOf_same p at_ rfl rfl rfl
  | @writes k io pc o at_ sends move =>
    obtain ⟨rfl, hone, unsent, unsent'⟩ := writes_unsent inv alone' at_ sends move
    exact writes_flushes p unsent unsent' hone sends move
  | @calls k i io cb last at_ =>
    rw [followsUp_worker at_ rfl]
    have hafter : (if last then DoPc.closing i else .lock (i + 1)).callsFlush = false := by
      cases last <;> rfl
    exact flushesOf_called p at_ hafter
  | doClose at_ =>
    rw [followsUp_worker at_ rfl]
    exact flushesOf_same p at_ rfl rfl rfl

/-- Where a callback is set, the sections that find nothing unsent are counted. -/
theorem flush_step {s s' : Sys} {a : Label} (h : SendStep s a s') (inv : Unsent s ∨ Late s)
    (alone' : Alone s') (set : flushSet s a = true) :
    flushCalls s' = flushCalls s + (followsUp s a && allWritten s).toNat := by
  rw [flushCalls_eq, flushCalls_eq, flushesOf_step _ h inv alone']
  cases hfollows : followsUp s a with
  | false => rfl
  | true =>
    have hset : s.world.sock.flushCallback.isSome = true := by
      simpa [flushSet, hfollows] using set
    obtain ⟨cb, hcb⟩ := Option.isSome_iff_exists.mp hset
    rw [hcb, Option.any_some, Bool.and_true]

/-- Only the section after a successful writev decides on the callback. -/
theorem decided_by {w : World} {pc : DoPc} {o : Outcome} {q : DoPc} (h : WorkerStep w pc o)
    (next : o.next = some q) (calls : q.callsFlush = true) :
    ∃ i j ver n total null, pc = .written i j ver (.ok n) total null ∧ Move w pc o := by
  have untracked {q : DoPc} (h : q.tracked = false) : q.callsFlush = false := by
    cases q with
    | sendAction i act => cases act <;> first | rfl | cases h
    | _ => rfl
  cases h with
  | aside h => cases (untracked (h.after q next)).symm.trans calls
  | take => cases next; cases calls
  | writes sends move =>
    cases hpending : pc.unaccounted with
    | false =>
      obtain ⟨w', q', rfl, hafter, -⟩ := writes_elsewhere move sends hpending
      cases next
      cases hafter.symm.trans calls
    | true =>
      obtain ⟨i, j, ver, n, total, null, rfl⟩ := unaccounted_eq hpending
      exact ⟨i, j, ver, n, total, null, rfl, move⟩
  | @calls i cb last =>
    cases next
    cases last <;> cases calls
  | doClose => cases next; cases calls

/-- In every run with a flush callback set: the callback is decided on only where every accepted
byte has been written, and each section after a successful writev that finds nothing unsent leads
to one call. -/
theorem flush_callback_means_flushed {b : Build} {as : List Label} {s : Sys}
    (run : Machine.exec (Machine.guarded flushSet (step b)) Sys.init as = some s) :
    (∀ (k : ℕ) pc io o i cb last, s.tasks[k]? = some pc → doStep b s.world io pc = some o →
      o.next = some (.sendAction i (.callFlushCallback cb last)) →
        acceptedBytes o.world.log = writtenBytes o.world.log) ∧
    flushCalls s = Machine.tally (Machine.guarded flushSet (step b))
      (fun s a => followsUp s a && allWritten s) Sys.init as := by
  refine ⟨fun k pc io o i cb last at_ ho hnext => ?_, ?_⟩
  · have hreach := (Machine.Runs.of_exec as run).reaches
    obtain ⟨i', j, ver, n, total, null, rfl, move⟩ := decided_by (doStep_worker ho) hnext rfl
    have hstep : step b s (.worker k io) = some (s.resume k o) := by
      simp [step, workerStep, at_, ho]
    have alone' := reachable_alone (.next hreach trivial hstep)
    obtain ⟨rfl, hone, inv, inv'⟩ := writes_unsent (reachable_unsent hreach) alone' at_ rfl move
    obtain ⟨-, -, -, -, -, hmore⟩ := move_followUp move
    refine (inv.rest inv' hone move).sent_iff.mp (not_not.mp fun hlist => ?_)
    cases hnext.symm.trans (hmore hlist).2
  · refine (Machine.tally_exec (fun s a => followsUp s a && allWritten s) flushCalls as run
      fun u v a reach hstep => ?_).trans (Nat.zero_add _)
    obtain ⟨hset, hstep⟩ := Machine.guarded_eq_some.mp hstep
    have hreach := (Machine.Runs.of_guarded reach).reaches
    exact flush_step (step_sendStep hstep) (reachable_unsent hreach)
      (reachable_alone (.next hreach trivial hstep)) hset

def flushRun : List Label :=
  [.start, .setFlushCallback (some 9), .send (some ⟨[7, 8], 0, 2⟩) 0, .writable,
    .collect ⟨false, true, false⟩, .disable, .onActive 0, .post, .worker 0 .again,
    .worker 0 .again, .worker 0 .again, .worker 0 .again, .worker 0 (.ok 2), .worker 0 .again,
    .worker 0 .again]

theorem flush_callback_means_flushed_once : ∃ s : Sys,
    Machine.exec (Machine.guarded flushSet (step ⟨false⟩)) Sys.init flushRun = some s ∧
    .flushCallback 9 ∈ s.world.log ∧
    Machine.tally (Machine.guarded flushSet (step ⟨false⟩))
      (fun s a => followsUp s a && allWritten s) Sys.init flushRun = 1 := by
  have h : (Machine.exec (Machine.guarded flushSet (step ⟨false⟩)) Sys.init flushRun).map
      (fun s => (decide (.flushCallback 9 ∈ s.world.log), flushCalls s)) = some (true, 1) := rfl
  obtain ⟨s, hs, hview⟩ := Option.map_eq_some_iff.mp h
  simp only [Prod.mk.injEq, decide_eq_true_eq] at hview
  exact ⟨s, hs, hview.1, (flush_callback_means_flushed hs).2.symm.trans hview.2⟩

/-! ## SendAndClose -/

def DoPc.willClose : DoPc → Bool
  | .written _ _ _ (.ok _) _ _ | .sendAction _ (.callFlushCallback _ true) | .closing _ => true
  | _ => false

/-- The section after a successful writev finds an open socket without error, everything written
and `closedOnFlush` set, and no flush callback. -/
def leavesOpen (s : Sys) (a : Label) : Bool :=
  followsUp s a && s.world.sock.closedOnFlush && allWritten s &&
    !s.world.sock.closed && !s.world.sock.socketError && s.world.sock.flushCallback.isNone

def Closes (s : Sys) : Prop :=
  s.world.sock.closedOnFlush = true → acceptedBytes s.world.log = writtenBytes s.world.log →
    s.world.sock.socketError = true ∨ s.world.sock.closed = true ∨
      ∃ pc ∈ s.tasks, pc.willClose = true

theorem queueSend_more {s : Sys} (inv : Unsent s) (buff : Buffer) {len : ℕ} (last : Bool)
    (pos : 0 < len) :
    acceptedBytes (queueSend s.world buff len last).log ≠
      writtenBytes (queueSend s.world buff len last).log := by
  intro hall
  obtain ⟨bytes, hlen, hacc, hwritten⟩ := queueSend_accepts s.world buff last pos
  have hwhole := congrArg List.length inv.whole
  have hsame := congrArg List.length hall
  rw [hacc, hwritten, List.length_append, hlen] at hsame
  simp only [List.length_append] at hwhole
  omega

theorem Closes.resume {s : Sys} {k : ℕ} {pc : DoPc} {o : Outcome} (inv : Closes s)
    (at_ : s.tasks[k]? = some pc) (stays : pc.willClose = false)
    (last : o.world.sock.closedOnFlush = s.world.sock.closedOnFlush)
    (acc : acceptedBytes o.world.log = acceptedBytes s.world.log)
    (written : writtenBytes o.world.log = writtenBytes s.world.log)
    (error : s.world.sock.socketError = true → o.world.sock.socketError = true)
    (closed : s.world.sock.closed = true → o.world.sock.closed = true) :
    Closes (s.resume k o) := by
  intro hlast hall
  have hbefore : acceptedBytes s.world.log = writtenBytes s.world.log :=
    acc.symm.trans (hall.trans written)
  rcases inv (last.symm.trans hlast) hbefore with h | h | ⟨q, hq, hwill⟩
  · exact .inl (error h)
  · exact .inr (.inl (closed h))
  · refine .inr (.inr ⟨q, mem_resume at_ hq ?_ o, hwill⟩)
    rintro rfl
    cases stays.symm.trans hwill

theorem mem_resume_next {s : Sys} {k : ℕ} {pc q : DoPc} {o : Outcome}
    (at_ : s.tasks[k]? = some pc) (next : o.next = some q) : q ∈ (s.resume k o).tasks := by
  simp only [Sys.resume, next]
  exact List.mem_set (List.getElem?_eq_some_iff.mp at_).1 q

/-- The section after a successful writev goes on to close, unless it is one that leaves open. -/
theorem closes_followUp {s : Sys} {i n total : ℕ} {j : Fin 2} {ver : BitVec 32} {null : Bool}
    {io : Io} {o : Outcome} (at_ : s.tasks[0]? = some (.written i j ver (.ok n) total null))
    (rest : Rest o.world.outgoing)
    (move : Move s.world (.written i j ver (.ok n) total null) o)
    (set : leavesOpen s (.worker 0 io) = false) : Closes (s.resume 0 o) := by
  obtain ⟨hlast, -, hclosed, herror, hempty, -⟩ := move_followUp move
  obtain ⟨hacc, hwritten⟩ := written_accepted move
  intro hclose hall
  have hnext := (hempty (rest.sent_iff.mpr hall)).2
  have hflag : s.world.sock.closedOnFlush = true := hlast.symm.trans hclose
  cases hcb : s.world.sock.flushCallback with
  | some cb =>
    rw [hcb, hflag] at hnext
    exact .inr (.inr ⟨_, mem_resume_next at_ hnext, rfl⟩)
  | none =>
    have hfollows : followsUp s (.worker 0 io) = true := by simp only [followsUp, at_]
    have hwhole : allWritten s = true :=
      decide_eq_true (hacc.symm.trans (Eq.trans hall hwritten))
    simp only [leavesOpen, hfollows, hflag, hwhole, hcb, Bool.true_and, Option.isNone_none,
      Bool.and_true, Bool.and_eq_false_iff, Bool.not_eq_false'] at set
    rcases set with h | h
    · exact .inr (.inl (hclosed.trans h))
    · exact .inl (herror.trans h)

theorem closes_writes {s : Sys} {pc : DoPc} {o : Outcome} (inv : Closes s)
    (at_ : s.tasks[0]? = some pc) (sends : pc.sends = true) (pending : pc.unaccounted = false)
    (move : Move s.world pc o) : Closes (s.resume 0 o) := by
  cases move with
  | writevAll => exact fun _ _ => .inr (.inr ⟨_, mem_resume_next at_ rfl, rfl⟩)
  | writevPart => exact fun _ _ => .inr (.inr ⟨_, mem_resume_next at_ rfl, rfl⟩)
  | writevError =>
    have hout := writeError_outgoing s.world
    exact inv.resume at_ rfl rfl (congrArg Outgoing.accepted hout :)
      (congrArg Outgoing.written hout :) id id
  | writtenOk => cases pending
  | writtenError => exact inv.resume at_ rfl rfl rfl rfl (fun _ => rfl) id
  | quiet hq | idle hq | leave hq | closing hq => exact absurd hq (DoPc.sends_not_quiet sends)
  | _ => first | exact inv.resume at_ rfl rfl rfl rfl id id | cases sends

theorem Aside.closes {s s' : Sys} (world : Aside s.world s'.world) (inv : Closes s)
    (tasks : ∀ pc ∈ s.tasks, pc.willClose = true →
      pc ∈ s'.tasks ∨ s'.world.sock.closed = true) : Closes s' := by
  have hacc : acceptedBytes s'.world.log = acceptedBytes s.world.log :=
    congrArg Outgoing.accepted world.outgoing
  have hwritten : writtenBytes s'.world.log = writtenBytes s.world.log :=
    congrArg Outgoing.written world.outgoing
  intro hlast hall
  rw [hacc, hwritten] at hall
  rcases inv ((congrArg SendPart.closedOnFlush world.part).symm.trans hlast) hall with
    h | h | ⟨q, hq, hwill⟩
  · exact .inl (world.error h)
  · exact .inr (.inl (world.closed h))
  · rcases tasks q hq hwill with h | h
    · exact .inr (.inr ⟨q, h, hwill⟩)
    · exact .inr (.inl h)

theorem closes_step {s s' : Sys} {a : Label} (h : SendStep s a s') (inv : Closes s)
    (unsent : Unsent s ∨ Late s) (one : s.world.sock.closed = false → OneWorker s)
    (alone' : Alone s') (set : leavesOpen s a = false) : Closes s' := by
  cases h with
  | aside world away tasks closing =>
    refine world.closes inv fun q hq hwill => ?_
    cases q with
    | closing i => exact closing i hq
    | written => exact .inl ((tracked_of_filter tasks _ rfl).mpr hq)
    | sendAction i act =>
      cases act with
      | callFlushCallback => exact .inl ((tracked_of_filter tasks _ rfl).mpr hq)
      | _ => cases hwill
    | _ => cases hwill
  | sent caller buff len last pos opened write more world tasks =>
    rcases unsent with inv | late
    · have hacc : acceptedBytes s'.world.log = _ := congrArg Outgoing.accepted world.outgoing
      have hwritten : writtenBytes s'.world.log = _ := congrArg Outgoing.written world.outgoing
      intro _ hall
      exact absurd (hacc.symm.trans (Eq.trans hall hwritten)) (queueSend_more inv buff last pos)
    · cases opened.symm.trans late.closed
  | shutdown opened write =>
    have hout := markShutdown_outgoing s.world
    have hacc : acceptedBytes (markShutdown s.world).log = acceptedBytes s.world.log :=
      congrArg Outgoing.accepted hout
    have hwritten : writtenBytes (markShutdown s.world).log = writtenBytes s.world.log :=
      congrArg Outgoing.written hout
    unfold Closes
    rw [Sys.lift, hacc, hwritten, markShutdown_sock]
    exact inv
  | take at_ can => exact inv.resume at_ rfl rfl rfl rfl id id
  | @writes k io pc o at_ sends move =>
    obtain ⟨rfl, hone, unsent, unsent'⟩ := writes_unsent unsent alone' at_ sends move
    cases hpending : pc.unaccounted with
    | false => exact closes_writes inv at_ sends hpending move
    | true =>
      obtain ⟨i, j, ver, n, total, null, rfl⟩ := unaccounted_eq hpending
      exact closes_followUp at_ (unsent.rest unsent' hone move) move set
  | @calls k i io cb last at_ =>
    cases last with
    | true => exact fun _ _ => .inr (.inr ⟨_, mem_resume_next at_ rfl, rfl⟩)
    | false =>
      have hout : (s.world.note (.flushCallback cb)).outgoing = s.world.outgoing :=
        note_outgoing _ rfl
      exact inv.resume at_ rfl rfl (congrArg Outgoing.accepted hout :)
        (congrArg Outgoing.written hout :) id id
  | doClose at_ =>
    intro _ _
    refine .inr (.inl ?_)
    show s.world.sock.closed = true
    cases hc : s.world.sock.closed with
    | true => rfl
    | false => cases (one hc).live _ (List.mem_of_getElem? at_)

/-- Where the flush callback is set at every section that finds everything written: once a
SendAndClose has been accepted, all is written and no task is left, the socket is closed. -/
theorem sendAndClose_closes {b : Build} {s : Sys}
    (h : Machine.Runs (step b) (fun s a => leavesOpen s a = false) Sys.init s)
    (last : s.world.sock.closedOnFlush = true) (fine : s.world.sock.socketError = false)
    (idle : s.tasks = []) (all : acceptedBytes s.world.log = writtenBytes s.world.log) :
    s.world.sock.closed = true := by
  have inv : Closes s := by
    refine h.invariant (I := Closes) (fun hlast => by cases hlast) fun u v a run inv set hstep => ?_
    exact closes_step (step_sendStep hstep) inv (reachable_unsent run.reaches)
      (reachable_oneWorker run.reaches) (reachable_alone (.next run.reaches trivial hstep)) set
  rcases inv last all with h | h | ⟨pc, hpc, -⟩
  · cases fine.symm.trans h
  · exact h
  · rw [idle] at hpc
    cases hpc

def sendAndCloseRun (cb : Option Callback) : List Label :=
  [.start, .setFlushCallback cb, .sendAndClose (some ⟨[7, 8], 0, 2⟩) 0, .writable,
    .collect ⟨false, true, false⟩, .disable, .onActive 0, .post, .worker 0 .again,
    .worker 0 .again, .worker 0 .again, .worker 0 .again, .worker 0 (.ok 2), .worker 0 .again,
    .worker 0 .again, .worker 0 .again]

theorem sendAndClose_closes_flushed : ∃ s : Sys,
    Machine.exec (Machine.guarded (fun s a => !leavesOpen s a) (step ⟨false⟩)) Sys.init
      (sendAndCloseRun (some 9) ++ [.worker 0 .again, .worker 0 .again, .worker 0 .again]) =
        some s ∧ s.world.sock.closed = true := by
  have h : (Machine.exec (Machine.guarded (fun s a => !leavesOpen s a) (step ⟨false⟩)) Sys.init
      (sendAndCloseRun (some 9) ++ [.worker 0 .again, .worker 0 .again, .worker 0 .again])).map
      (fun s => (s.world.sock.closedOnFlush, s.world.sock.socketError, s.tasks,
        acceptedBytes s.world.log, writtenBytes s.world.log)) =
      some (true, false, [], [7, 8], [7, 8]) := rfl
  obtain ⟨s, hs, hview⟩ := Option.map_eq_some_iff.mp h
  simp only [Prod.mk.injEq] at hview
  obtain ⟨hlast, hfine, hidle, hacc, hwritten⟩ := hview
  exact ⟨s, hs, sendAndClose_closes (b := ⟨false⟩) (.avoiding _ hs) hlast hfine hidle
    (hacc.trans hwritten.symm)⟩

/-- Without a flush callback the task ends and the socket stays open. -/
theorem sendAndClose_stays_open : ∃ s : Sys,
    Machine.exec (step ⟨false⟩) Sys.init (sendAndCloseRun none) = some s ∧ Reachable ⟨false⟩ s ∧
    s.world.sock.closedOnFlush = true ∧ s.world.sock.socketError = false ∧ s.tasks = [] ∧
    s.posting = 0 ∧ acceptedBytes s.world.log = [7, 8] ∧ writtenBytes s.world.log = [7, 8] ∧
    s.world.sock.closed = false := by
  have h : (Machine.exec (step ⟨false⟩) Sys.init (sendAndCloseRun none)).map
      (fun s => (s.world.sock.closedOnFlush, s.world.sock.socketError, s.tasks, s.posting,
        acceptedBytes s.world.log, writtenBytes s.world.log, s.world.sock.closed)) =
      some (true, false, [], 0, [7, 8], [7, 8], false) := rfl
  obtain ⟨s, hs, hview⟩ := Option.map_eq_some_iff.mp h
  simp only [Prod.mk.injEq] at hview
  exact ⟨s, hs, Machine.Reaches.of_exec _ hs, hview⟩

end Hwnet.TCPSocket
