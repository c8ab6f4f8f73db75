import Hwnet.TCPSocketSendSteps

set_option autoImplicit false

/-!
# What is not sent yet

Until `doClose` runs, also on a closed socket and after a write error, the two send lists hold what
was accepted and not written. A task that has taken a list is the only one, and stays it.
-/
namespace Hwnet.TCPSocket

/-! ## The one task that sends -/

def Alone (s : Sys) : Prop :=
  ∀ pc ∈ s.tasks, pc.sends = true →
    s.tasks = [pc] ∧ s.posting = 0 ∧ s.world.sock.doing = true

theorem section_busy {w : World} {r : World × Bool} (h : Section w r)
    (busy : w.sock.doing = true) : r.2 = false ∧ r.1.sock.doing = true := by
  have woken {w' : World} (work : Bool) (same : w'.sock.doing = w.sock.doing) :
      (wake w' work).2 = false ∧ (wake w' work).1.sock.doing = true := by
    rw [wake_eq, same, busy]
    exact ⟨rfl, rfl⟩
  cases h with
  | retimed h => exact ⟨rfl, h.doing.trans busy⟩
  | timer h => exact woken true h.doing
  | sent buff len last pos ho hs hm h => exact woken _ (h.doing :)
  | posted buff pos ho h => exact woken _ (h.doing :)
  | shutdown =>
    refine ⟨rfl, ?_⟩
    rw [markShutdown_sock]
    exact busy
  | closed ho h => exact ⟨by rw [busy, Bool.not_true, Bool.and_false], h.doing.trans busy⟩
  | set | started | arrive | writable => exact ⟨rfl, busy⟩

theorem onActive_busy {w : World} (event : Event) (err : ℤ) (busy : w.sock.doing = true) :
    (onActive w event err).2 = false ∧ (onActive w event err).1.sock.doing = true := by
  have hdoing := (setReady_frame w.sock event err).2
  unfold onActive
  rw [wake_eq]
  simp only [hdoing, busy]
  exact ⟨rfl, rfl⟩

/-- A task comes to send only on an open socket. -/
theorem move_sends {w : World} {pc p : DoPc} {o : Outcome} (h : Move w pc o)
    (next : o.next = some p) (sends : p.sends = true) :
    o.post = false ∧ o.world.sock.doing = w.sock.doing ∧
      (pc.sends = true ∨ w.sock.closed = false) := by
  cases h with
  | quiet hq hq' => cases next; exact absurd hq' (DoPc.sends_not_quiet sends)
  | deliverList _ hnext =>
    cases next
    rcases hnext with rfl | ⟨_, rfl⟩
    · cases sends
    · exact absurd (afterRecv_quiet _ _) (DoPc.sends_not_quiet sends)
  | recvFinish => cases next; exact absurd (afterRecv_quiet _ _) (DoPc.sends_not_quiet sends)
  | restoreClear => cases next; exact absurd (afterRecv_quiet _ _) (DoPc.sends_not_quiet sends)
  | restoreStale => cases next; exact absurd (afterRecv_quiet _ _) (DoPc.sends_not_quiet sends)
  | closing hq hq' => cases next; exact absurd hq' (DoPc.sends_not_quiet sends)
  | sendTake can =>
    exact ⟨rfl, rfl, .inr (canWrite_open can).2.1⟩
  | writtenOk last put =>
    obtain ⟨l, act, hf, -⟩ := flushed_eq _ _ _
    rw [hf] at next
    cases next
    cases sends
  | writevAll | writevPart | writevAgain | writevError => exact ⟨rfl, rfl, .inl rfl⟩
  | _ => cases next <;> cases sends

theorem alone_step {s s' : Sys} {a : Label} (h : Stepped s a s') (inv : Alone s)
    (one : s.world.sock.closed = false → OneWorker s) : Alone s' := by
  cases h with
  | apiCall h =>
    intro pc hpc hs
    obtain ⟨hone, hposting, hbusy⟩ := inv pc hpc hs
    obtain ⟨hpost, hdoing⟩ := section_busy h hbusy
    exact ⟨hone, by simp [Sys.unlock, hposting, hpost], hdoing⟩
  | collect | disable => exact inv
  | onActive err locking =>
    intro pc hpc hs
    obtain ⟨hone, hposting, hbusy⟩ := inv pc hpc hs
    obtain ⟨hpost, hdoing⟩ := onActive_busy (w := s.world) _ err hbusy
    exact ⟨hone, by simp [Sys.unlock, hposting, hpost], hdoing⟩
  | post pos =>
    intro pc hpc hs
    rcases List.mem_append.mp hpc with hpc | hpc
    · have := (inv pc hpc hs).2.1
      omega
    · rw [List.mem_singleton.mp hpc] at hs
      cases hs
  | @worker k io pc o at_ move =>
    -- a task that sends is the one that has stepped, now or before
    have sole (h : s.tasks = [pc]) : k = 0 :=
      (Machine.sole_of_length_le_one (by simp [h]) at_).1
    have stepped : ∀ q ∈ (s.resume k o).tasks, q.sends = true → o.next = some q := by
      intro q hq hs
      rcases of_mem_resume hq with hbefore | hnext
      · have hone := (inv q hbefore hs).1
        have hpc := (Machine.sole_of_length_le_one (by simp [hone]) at_).2
        rw [sole hpc, resume_sole hpc, Option.mem_toList] at hq
        exact hq
      · exact hnext
    intro q hq hs
    have hn := stepped q hq hs
    obtain ⟨hpost, hdoing, hfrom⟩ := move_sends move hn hs
    have hbefore : s.tasks = [pc] ∧ s.posting = 0 ∧ s.world.sock.doing = true := by
      rcases hfrom with hfrom | hopen
      · exact inv pc (List.mem_of_getElem? at_) hfrom
      · have hsingle := ((one hopen).single at_).1
        have hcount := (one hopen).count
        have hbusy := (one hopen).busy_of_task (List.getElem?_eq_some_iff.mp at_).1
        rw [hbusy, hsingle, List.length_singleton, Bool.toNat_true] at hcount
        exact ⟨hsingle, by omega, hbusy⟩
    obtain ⟨hone, hposting, hbusy⟩ := hbefore
    refine ⟨?_, by simp [Sys.resume, hposting, hpost], hdoing.trans hbusy⟩
    simp only [Sys.resume, hn, hone, sole hone, List.set_cons_zero]

theorem reachable_alone {b : Build} {s : Sys} (h : Reachable b s) : Alone s := by
  refine h.invariant (fun pc hpc => by cases hpc) fun u v a run inv _ hstep => ?_
  exact alone_step (step_stepped hstep) inv (reachable_oneWorker run)

/-! ## The bytes of the two lists -/

/-- The count a writev has returned and its section has not accounted for. -/
def DoPc.inWindow : DoPc → ℕ
  | .written _ _ _ (.ok n) _ _ => n
  | _ => 0

def Sys.inWindow (s : Sys) : ℕ := (s.tasks.map DoPc.inWindow).sum

structure Rest (o : Outgoing) : Prop where
  positive : ∀ j, ∀ c ∈ o.sendLists j, 0 < c.len
  idle : o.sendLists (flip o.slistIdx) = []
  whole : o.written ++ listBytes (o.sendLists o.slistIdx) = o.accepted

/-- After a write error the list taken stays where it is. -/
structure Broken (s : Sys) (o : Outgoing) : Prop where
  positive : ∀ j, ∀ c ∈ o.sendLists j, 0 < c.len
  whole : o.written ++ listBytes (o.sendLists (flip o.slistIdx)) ++
    listBytes (o.sendLists o.slistIdx) = o.accepted
  stopped : s.world.sock.socketError = true ∨ s.world.sock.closed = true ∨
    ∃ pc ∈ s.tasks, pc.sends = true
  error : ∀ pc ∈ s.tasks, pc.sends = true →
    ∃ i j ver errno total null, pc = .written i j ver (.error errno) total null

structure Unsent (s : Sys) : Prop where
  alone : Alone s
  fine : s.world.outgoing.failed = false → Stream s.world.outgoing s.tasks
  broken : s.world.outgoing.failed = true → Broken s s.world.outgoing

theorem stream_iff_rest {o : Outgoing} {tasks : List DoPc}
    (none : ∀ pc ∈ tasks, pc.sends = false) : Stream o tasks ↔ Rest o := by
  have hheld : tasks.flatMap (DoPc.held o.sendLists) = [] :=
    List.flatMap_eq_nil_iff.mpr fun pc hpc => held_of_not_sends (none pc hpc)
  constructor
  · rintro ⟨positive, idle, pending, whole⟩
    refine ⟨positive, ?_, by rwa [hheld, List.append_nil] at whole⟩
    cases tasks with
    | nil => exact idle rfl
    | cons pc tasks =>
      exact (pending_of_not_sends (none pc List.mem_cons_self)).mp (pending pc List.mem_cons_self)
  · rintro ⟨positive, idle, whole⟩
    refine ⟨positive, fun _ => idle, fun pc hpc => ?_, by rw [hheld, List.append_nil]; exact whole⟩
    exact (pending_of_not_sends (none pc hpc)).mpr idle

/-- The tasks that send are the same, so either none does or the one task is the same. -/
theorem Alone.same_tasks {s s' : Sys} (alone : Alone s) (alone' : Alone s')
    (tasks : ∀ pc, pc.sends = true → (pc ∈ s'.tasks ↔ pc ∈ s.tasks)) :
    s'.tasks = s.tasks ∨
      (∀ pc ∈ s.tasks, pc.sends = false) ∧ ∀ pc ∈ s'.tasks, pc.sends = false := by
  by_cases hsends : ∃ pc ∈ s.tasks, pc.sends = true
  · obtain ⟨pc, hpc, hs⟩ := hsends
    exact .inl ((alone' pc ((tasks pc hs).mpr hpc) hs).1.trans (alone pc hpc hs).1.symm)
  · have hnone : ∀ pc ∈ s.tasks, pc.sends = false := by simpa using hsends
    refine .inr ⟨hnone, fun pc hpc => ?_⟩
    cases hs : pc.sends with
    | false => rfl
    | true => exact (hnone pc ((tasks pc hs).mp hpc)).symm.trans hs |>.symm

theorem Unsent.frame {s s' : Sys} (inv : Unsent s) (alone' : Alone s')
    (out : s'.world.outgoing = s.world.outgoing)
    (closed : s.world.sock.closed = true → s'.world.sock.closed = true)
    (error : s.world.sock.socketError = true → s'.world.sock.socketError = true)
    (tasks : ∀ pc, pc.sends = true → (pc ∈ s'.tasks ↔ pc ∈ s.tasks)) : Unsent s' := by
  refine ⟨alone', fun hfine => ?_, fun hfail => ?_⟩
  · rw [out] at hfine ⊢
    have hstream := inv.fine hfine
    rcases inv.alone.same_tasks alone' tasks with hsame | ⟨hnone, hnone'⟩
    · rw [hsame]
      exact hstream
    · exact (stream_iff_rest hnone').mpr ((stream_iff_rest hnone).mp hstream)
  · rw [out] at hfail ⊢
    obtain ⟨positive, whole, stopped, herror⟩ := inv.broken hfail
    refine ⟨positive, whole, ?_, fun pc hpc hs => herror pc ((tasks pc hs).mp hpc) hs⟩
    rcases stopped with h | h | ⟨pc, hpc, hs⟩
    · exact .inl (error h)
    · exact .inr (.inl (closed h))
    · exact .inr (.inr ⟨pc, (tasks pc hs).mpr hpc, hs⟩)

theorem Broken.queued {s s' : Sys} {o o' : Outgoing} (h : Broken s o) (hq : Queued o o')
    (closed : s.world.sock.closed = true → s'.world.sock.closed = true)
    (error : s.world.sock.socketError = true → s'.world.sock.socketError = true)
    (tasks : s'.tasks = s.tasks) : Broken s' o' := by
  have hstopped : s'.world.sock.socketError = true ∨ s'.world.sock.closed = true ∨
      ∃ pc ∈ s'.tasks, pc.sends = true := by
    rw [tasks]
    exact h.stopped.imp error (Or.imp_left closed)
  obtain ⟨hidx, hwritten, hother, l, hlist, hacc⟩ := hq.appends
  refine ⟨hq.positive h.positive, ?_, hstopped, tasks ▸ h.error⟩
  rw [hwritten, hidx, hother, hlist, hacc, ← h.whole, ← List.append_assoc]

theorem Sent.breaks {o o' : Outgoing} {pc : DoPc} {next : Option DoPc} (h : Sent o pc o' next) :
    o'.failed = o.failed ∨ ∃ i j ver, pc = .writev i j ver := by
  cases h with
  | writevError => exact .inr ⟨_, _, _, rfl⟩
  | _ => exact .inl rfl

/-- The only step of a writer that breaks the stream is the failed writev itself. -/
theorem move_fails {w : World} {pc : DoPc} {o : Outcome} (h : Move w pc o)
    (sends : pc.sends = true) (fine : w.outgoing.failed = false)
    (fails : o.world.outgoing.failed = true) : ∃ i j ver errno, pc = .writev i j ver ∧
      o = goto (w.note .writeError) (.written i j ver (.error errno)
        (totalBytes (batch (w.sock.sendLists j))) (curNull (w.sock.sendLists j))) := by
  have hsent := move_sent h (by rintro rfl; cases sends)
  rcases hsent.breaks with hsame | ⟨i, j, ver, rfl⟩
  · cases (hsame.trans fine).symm.trans fails
  · cases h with
    | writevError errno => exact ⟨i, j, ver, errno, rfl, rfl⟩
    | writevAll | writevPart =>
      rw [goto, written_outgoing] at fails
      cases fine.symm.trans fails
    | writevAgain => cases fine.symm.trans fails
    | quiet hq | idle hq | leave hq | closing hq => cases hq

theorem Alone.before {s : Sys} {k : ℕ} {pc q : DoPc} {o : Outcome} (alone' : Alone (s.resume k o))
    (at_ : s.tasks[k]? = some pc) (next : o.next = some q) (sends : q.sends = true) :
    k = 0 ∧ s.tasks = [pc] ∧ (s.resume k o).tasks = [q] := by
  have hk := (List.getElem?_eq_some_iff.mp at_).1
  have htasks : (s.resume k o).tasks = s.tasks.set k q := by
    simp only [Sys.resume, next]
  have hone : s.tasks.set k q = [q] := by
    rw [← htasks]
    refine (alone' q ?_ sends).1
    rw [htasks]
    exact List.mem_set hk q
  have hlen : s.tasks.length ≤ 1 := by
    have := congrArg List.length hone
    rw [List.length_set, List.length_singleton] at this
    exact Nat.le_of_eq this
  obtain ⟨hzero, hbefore⟩ := Machine.sole_of_length_le_one hlen at_
  exact ⟨hzero, hbefore, htasks.trans hone⟩

/-- A list is taken only where no write has failed. -/
theorem Unsent.take {s : Sys} {k i : ℕ} (inv : Unsent s)
    (at_ : s.tasks[k]? = some (.sendInWorker i)) (can : s.world.sock.canWrite = true)
    (alone' : Alone (s.resume k
      (goto { s.world with sock := { s.world.sock with slistIdx := flip s.world.sock.slistIdx } }
        (.writev i s.world.sock.slistIdx s.world.sock.writeableVer)))) :
    Unsent (s.resume k
      (goto { s.world with sock := { s.world.sock with slistIdx := flip s.world.sock.slistIdx } }
        (.writev i s.world.sock.slistIdx s.world.sock.writeableVer))) := by
  obtain ⟨-, hone, hnext⟩ := alone'.before at_ rfl rfl
  have hfine : s.world.outgoing.failed = false := by
    cases hfail : s.world.outgoing.failed with
    | false => rfl
    | true =>
      obtain ⟨-, hopen, hnone⟩ := canWrite_open can
      rcases (inv.broken hfail).stopped with h | h | ⟨pc, hpc, hs⟩
      · cases hnone.symm.trans h
      · cases hopen.symm.trans h
      · rw [hone, List.mem_singleton] at hpc
        rw [hpc] at hs
        cases hs
  refine ⟨alone', fun _ => ?_, fun hfail => by cases hfine.symm.trans hfail⟩
  have hstream := inv.fine hfine
  rw [hone] at hstream
  rw [hnext]
  exact hstream.worker (.take rfl) hfine

theorem Stream.breaks {o : Outgoing} {s' : Sys} {i total : ℕ} {j : Fin 2} {ver : BitVec 32}
    {errno : ℤ} {null : Bool} (h : Stream o [.writev i j ver])
    (tasks : s'.tasks = [.written i j ver (.error errno) total null]) :
    Broken s' { o with failed := true } := by
  obtain ⟨positive, -, pending, whole⟩ := h
  have hj : j = flip o.slistIdx := pending (.writev i j ver) (List.mem_singleton.mpr rfl)
  rw [List.flatMap_singleton, DoPc.held, hj] at whole
  have hmem : .written i j ver (.error errno) total null ∈ s'.tasks := by
    rw [tasks]
    exact List.mem_singleton.mpr rfl
  refine ⟨positive, whole, .inr (.inr ⟨_, hmem, rfl⟩), fun pc hpc _ => ?_⟩
  rw [tasks] at hpc
  exact ⟨_, _, _, _, _, _, List.mem_singleton.mp hpc⟩

theorem Broken.writes {s : Sys} {pc : DoPc} {o : Outcome} (h : Broken s s.world.outgoing)
    (one : s.tasks = [pc]) (sends : pc.sends = true) (move : Move s.world pc o) :
    Broken (s.resume 0 o) o.world.outgoing := by
  obtain ⟨i, j, ver, errno, total, null, rfl⟩ :=
    h.error pc (by rw [one]; exact List.mem_singleton.mpr rfl) sends
  have still {w' : World} {act : SendAction} :
      ∀ pc ∈ (s.resume 0 (goto w' (.sendAction i act))).tasks, pc.sends = false := by
    intro pc hpc
    simp only [Sys.resume, goto, one, List.set_cons_zero, List.mem_singleton] at hpc
    rw [hpc]
    rfl
  cases move with
  | writtenError opened =>
    refine ⟨h.positive, h.whole, .inl rfl, fun pc hpc hs => ?_⟩
    cases (still pc hpc).symm.trans hs
  | writtenClosed closed =>
    refine ⟨h.positive, h.whole, .inr (.inl closed), fun pc hpc hs => ?_⟩
    cases (still pc hpc).symm.trans hs
  | quiet hq | idle hq | leave hq | closing hq => cases hq

theorem Unsent.writes {s : Sys} {k : ℕ} {pc : DoPc} {o : Outcome} (inv : Unsent s)
    (alone' : Alone (s.resume k o)) (at_ : s.tasks[k]? = some pc) (sends : pc.sends = true)
    (move : Move s.world pc o) : Unsent (s.resume k o) := by
  have hone := (inv.alone pc (List.mem_of_getElem? at_) sends).1
  obtain ⟨rfl, -⟩ := Machine.sole_of_length_le_one (by simp [hone]) at_
  have htasks : (s.resume 0 o).tasks = o.next.toList := by
    unfold Sys.resume
    rw [hone]
    cases o.next <;> rfl
  have hsent := move_sent move (by rintro rfl; cases sends)
  refine ⟨alone', fun hfine => ?_, fun hfail => ?_⟩
  · have hstream := inv.fine (hsent.failed hfine)
    rw [hone] at hstream
    rw [htasks]
    exact hstream.worker hsent hfine
  · cases hbefore : s.world.outgoing.failed with
    | false =>
      obtain ⟨i, j, ver, errno, rfl, rfl⟩ := move_fails move sends hbefore hfail
      have hstream := inv.fine hbefore
      rw [hone] at hstream
      show Broken _ (s.world.note .writeError).outgoing
      rw [writeError_outgoing]
      exact hstream.breaks htasks
    | true => exact (inv.broken hbefore).writes hone sends move

def doCloses (s : Sys) : Label → Bool
  | .worker k _ => s.tasks[k]? = some .doClose
  | _ => false

theorem sends_tracked {pc : DoPc} (h : pc.sends = true) : pc.tracked = true := by
  cases pc <;> first | rfl | cases h

theorem tracked_of_filter {l l' : List DoPc}
    (tasks : l'.filter DoPc.tracked = l.filter DoPc.tracked) (pc : DoPc)
    (tracked : pc.tracked = true) : pc ∈ l' ↔ pc ∈ l := by
  have hmem := congrArg (pc ∈ ·) tasks
  simpa [tracked] using hmem

theorem sends_of_filter {l l' : List DoPc}
    (tasks : l'.filter DoPc.tracked = l.filter DoPc.tracked) (pc : DoPc) (sends : pc.sends = true) :
    pc ∈ l' ↔ pc ∈ l :=
  tracked_of_filter tasks pc (sends_tracked sends)

/-- The flush callback is called by a task that does not send, before and after. -/
theorem sends_of_calls {s : Sys} {k i : ℕ} {w : World} {cb : Callback} {last : Bool}
    (at_ : s.tasks[k]? = some (.sendAction i (.callFlushCallback cb last))) (pc : DoPc)
    (sends : pc.sends = true) :
    pc ∈ (s.resume k (goto w (if last then .closing i else .lock (i + 1)))).tasks ↔
      pc ∈ s.tasks := by
  have hne : pc ≠ .sendAction i (.callFlushCallback cb last) := by
    rintro rfl
    cases sends
  refine ⟨fun hpc => ?_, fun hpc => mem_resume at_ hpc hne _⟩
  rcases List.mem_or_eq_of_mem_set hpc with hpc | rfl
  · exact hpc
  · cases last <;> cases sends

theorem unsent_step {s s' : Sys} {a : Label} (h : SendStep s a s') (inv : Unsent s)
    (alone' : Alone s') (before : doCloses s a = false) : Unsent s' := by
  cases h with
  | aside world away tasks closing =>
    exact inv.frame alone' world.outgoing world.closed world.error (sends_of_filter tasks)
  | sent caller buff len last pos opened write more world tasks =>
    have hq := queueSend_queued s.world buff len last pos
    rw [← world.outgoing] at hq
    refine ⟨alone', fun hfine => ?_, fun hfail => ?_⟩
    · rw [tasks]
      exact (inv.fine (hq.failed.symm.trans hfine)).queued hq
    · exact (inv.broken (hq.failed.symm.trans hfail)).queued hq world.closed world.error tasks
  | shutdown opened write =>
    refine inv.frame alone' (markShutdown_outgoing _) ?_ ?_ fun _ _ => Iff.rfl
    · intro hc
      cases opened.symm.trans hc
    · intro he
      show (markShutdown s.world).sock.socketError = true
      rw [markShutdown_sock]
      exact he
  | take at_ can => exact inv.take at_ can alone'
  | writes at_ sends move => exact inv.writes alone' at_ sends move
  | calls at_ => exact inv.frame alone' (note_outgoing _ rfl) id id (sends_of_calls at_)
  | doClose at_ => simp [doCloses, at_] at before

theorem unsent_init : Unsent Sys.init where
  alone := fun _ h => by cases h
  fine := fun _ => Stream.init
  broken := fun h => by cases h

/-- The invariant of the runs that end before `doClose`. -/
theorem unsent_runs {b : Build} {s : Sys}
    (h : Machine.Runs (step b) (fun s a => doCloses s a = false) Sys.init s) : Unsent s := by
  refine h.invariant unsent_init fun u v a run inv before hstep => ?_
  exact unsent_step (step_sendStep hstep) inv
    (reachable_alone (.next run.reaches trivial hstep)) before

structure Late (s : Sys) : Prop where
  closed : s.world.sock.closed = true
  none : ∀ pc ∈ s.tasks, pc.sends = false

theorem late_step {s s' : Sys} {a : Label} (h : SendStep s a s') (inv : Late s) : Late s' := by
  have replaced {k : ℕ} {o : Outcome} (hn : ∀ p ∈ o.next, p.sends = false) :
      ∀ pc ∈ (s.resume k o).tasks, pc.sends = false := by
    intro pc hpc
    rcases of_mem_resume hpc with hpc | hpc
    · exact inv.none pc hpc
    · exact hn pc hpc
  cases h with
  | aside world away tasks closing =>
    refine ⟨world.closed inv.closed, fun pc hpc => ?_⟩
    cases hs : pc.sends with
    | false => rfl
    | true => exact hs.symm.trans (inv.none pc ((sends_of_filter tasks pc hs).mp hpc))
  | sent caller buff len last pos opened => cases opened.symm.trans inv.closed
  | shutdown opened => cases opened.symm.trans inv.closed
  | take at_ can =>
    cases (canWrite_open can).2.1.symm.trans inv.closed
  | writes at_ sends move =>
    cases (inv.none _ (List.mem_of_getElem? at_)).symm.trans sends
  | @calls k i io cb last at_ =>
    refine ⟨inv.closed, replaced fun p hp => ?_⟩
    cases hp
    cases last <;> rfl
  | doClose at_ =>
    refine ⟨inv.closed, replaced fun p hp => ?_⟩
    cases hp
    rfl

theorem doCloses_eq {s : Sys} {a : Label} (h : doCloses s a = true) :
    ∃ k io, a = .worker k io ∧ s.tasks[k]? = some .doClose := by
  cases a with
  | worker k io => exact ⟨k, io, rfl, of_decide_eq_true h⟩
  | _ => cases h

theorem Unsent.closes {b : Build} {s s' : Sys} {k : ℕ} {io : Io} (inv : Unsent s)
    (one : s.world.sock.closed = false → OneWorker s) (at_ : s.tasks[k]? = some .doClose)
    (h : step b s (.worker k io) = some s') : Late s' := by
  have hmem := List.mem_of_getElem? at_
  have hclosed : s.world.sock.closed = true := by
    cases hc : s.world.sock.closed with
    | true => rfl
    | false => cases (one hc).live _ hmem
  have hnone : ∀ pc ∈ s.tasks, pc.sends = false := by
    intro pc hpc
    cases hs : pc.sends with
    | false => rfl
    | true =>
      rw [(inv.alone pc hpc hs).1, List.mem_singleton] at hmem
      rw [← hmem] at hs
      cases hs
  exact late_step (step_sendStep h) ⟨hclosed, hnone⟩

/-- A step of a task that sends happens before the lists are given up. -/
theorem writes_unsent {s : Sys} {k : ℕ} {pc : DoPc} {o : Outcome} (inv : Unsent s ∨ Late s)
    (alone' : Alone (s.resume k o)) (at_ : s.tasks[k]? = some pc) (sends : pc.sends = true)
    (move : Move s.world pc o) :
    k = 0 ∧ s.tasks = [pc] ∧ Unsent s ∧ Unsent (s.resume k o) := by
  have hmem := List.mem_of_getElem? at_
  rcases inv with inv | late
  · have hone := (inv.alone pc hmem sends).1
    obtain ⟨hk, -⟩ := Machine.sole_of_length_le_one (by simp [hone]) at_
    exact ⟨hk, hone, inv, inv.writes alone' at_ sends move⟩
  · cases (late.none pc hmem).symm.trans sends

/-- In every state: what is unsent is in the lists, or the lists have been given up. -/
theorem reachable_unsent {b : Build} {s : Sys} (h : Reachable b s) : Unsent s ∨ Late s := by
  refine h.invariant (I := fun s => Unsent s ∨ Late s) (.inl unsent_init)
    fun u v a run inv _ hstep => ?_
  have hsend := step_sendStep hstep
  have alone' := reachable_alone (run.next trivial hstep)
  rcases inv with inv | late
  · cases hbefore : doCloses u a with
    | false => exact .inl (unsent_step hsend inv alone' hbefore)
    | true =>
      obtain ⟨k, io, rfl, hpc⟩ := doCloses_eq hbefore
      exact .inr (inv.closes (reachable_oneWorker run) hpc hstep)
  · exact .inr (late_step hsend late)

/-! ## What the invariant says of the lists -/

theorem inWindow_of_none {s : Sys} (none : ∀ pc ∈ s.tasks, pc.sends = false) :
    s.inWindow = 0 := by
  refine List.sum_eq_zero_iff_forall_eq_nat.mpr fun n hn => ?_
  obtain ⟨pc, hpc, rfl⟩ := List.mem_map.mp hn
  have := none pc hpc
  cases pc <;> first | rfl | cases this

theorem inWindow_of_single {s : Sys} {pc : DoPc} (one : s.tasks = [pc]) :
    s.inWindow = pc.inWindow := by
  simp [Sys.inWindow, one]

theorem Unsent.positive {s : Sys} (inv : Unsent s) :
    ∀ j, ∀ c ∈ s.world.sock.sendLists j, 0 < c.len := by
  cases hfail : s.world.outgoing.failed with
  | false => exact (inv.fine hfail).positive
  | true => exact (inv.broken hfail).positive

/-- Written, then the list that is not current without the count in the window, then the current
list: these are the bytes accepted. -/
theorem Unsent.whole {s : Sys} (inv : Unsent s) :
    writtenBytes s.world.log ++
        (listBytes (s.world.sock.sendLists (flip s.world.sock.slistIdx))).drop s.inWindow ++
      listBytes s.world.sock.ptrSendlist = acceptedBytes s.world.log := by
  by_cases hsends : ∃ pc ∈ s.tasks, pc.sends = true
  · obtain ⟨pc, hpc, hs⟩ := hsends
    have hone := (inv.alone pc hpc hs).1
    rw [inWindow_of_single hone]
    cases hfail : s.world.outgoing.failed with
    | true =>
      obtain ⟨i, j, ver, errno, total, null, rfl⟩ := (inv.broken hfail).error pc hpc hs
      exact (inv.broken hfail).whole
    | false =>
      obtain ⟨-, -, pending, whole⟩ := inv.fine hfail
      have hpending := pending pc hpc
      rw [hone, List.flatMap_singleton] at whole
      cases pc with
      | writev i j ver =>
        have hj : j = flip s.world.sock.slistIdx := hpending
        rw [DoPc.held, hj] at whole
        exact whole
      | written i j ver io total null =>
        have hj : j = flip s.world.sock.slistIdx := by
          cases io with
          | ok n => exact hpending.1
          | again => exact hpending
          | eof | error => cases hpending
        rw [DoPc.held, hj] at whole
        cases io <;> exact whole
      | _ => cases hs
  · have hnone : ∀ pc ∈ s.tasks, pc.sends = false := by simpa using hsends
    rw [inWindow_of_none hnone]
    cases hfail : s.world.outgoing.failed with
    | true => exact (inv.broken hfail).whole
    | false =>
      obtain ⟨-, idle, whole⟩ := (stream_iff_rest hnone).mp (inv.fine hfail)
      have hother : s.world.sock.sendLists (flip s.world.sock.slistIdx) = [] := idle
      rw [hother]
      exact (congrArg (· ++ _) (List.append_nil _)).trans whole

theorem listBytes_eq_nil {l : List SendContext} (pos : ∀ c ∈ l, 0 < c.len)
    (h : listBytes l = []) : l = [] := by
  cases l with
  | nil => rfl
  | cons c l =>
    have hc := pos c List.mem_cons_self
    have hlen := congrArg List.length h
    rw [listBytes_cons, List.length_append, c.length_bytes, List.length_nil] at hlen
    omega

/-- Where no list is taken and no write has failed, an empty current list means that nothing is
unsent. -/
theorem Rest.sent_iff {w : World} (h : Rest w.outgoing) :
    w.sock.ptrSendlist = [] ↔ acceptedBytes w.log = writtenBytes w.log := by
  have hwhole : writtenBytes w.log ++ listBytes w.sock.ptrSendlist = acceptedBytes w.log := h.whole
  constructor
  · intro hnil
    rw [hnil] at hwhole
    exact hwhole.symm.trans (List.append_nil _)
  · intro hall
    rw [hall] at hwhole
    exact listBytes_eq_nil (h.positive w.sock.slistIdx) (List.append_right_eq_self.mp hwhole)

structure FollowUp (w : World) (i : ℕ) (o : Outcome) : Prop where
  last : o.world.sock.closedOnFlush = w.sock.closedOnFlush
  shut : o.world.sock.shutdown = w.sock.shutdown
  closed : o.world.sock.closed = w.sock.closed
  error : o.world.sock.socketError = w.sock.socketError
  empty : o.world.sock.ptrSendlist = [] →
    o.world.log = w.log ++ (if w.sock.shutdown then [.shutdownWrite] else []) ∧
      o.next = some (.sendAction i (match w.sock.flushCallback with
        | some cb => .callFlushCallback cb w.sock.closedOnFlush
        | none => .nothing))
  more : o.world.sock.ptrSendlist ≠ [] →
    o.world.log = w.log ∧ o.next = some (.sendAction i .nothing)

theorem flushed_followUp (w : World) (i : ℕ) (last : Bool)
    (same : last = w.sock.closedOnFlush) : FollowUp w i (flushed w i last) := by
  subst same
  have hsock : (flushed w i w.sock.closedOnFlush).world.sock = w.sock := by
    obtain ⟨l, act, hf, -⟩ := flushed_eq w i w.sock.closedOnFlush
    rw [hf]
    rfl
  refine ⟨by rw [hsock], by rw [hsock], by rw [hsock], by rw [hsock], fun h => ?_, fun h => ?_⟩
  · rw [hsock] at h
    unfold flushed
    cases hshut : w.sock.shutdown <;> cases hcb : w.sock.flushCallback <;>
      simp [h, hcb, goto, World.note]
  · rw [hsock] at h
    unfold flushed
    rw [if_neg (by simpa using h)]
    exact ⟨rfl, rfl⟩

theorem move_followUp {w : World} {i n total : ℕ} {j : Fin 2} {ver : BitVec 32} {null : Bool}
    {o : Outcome} (move : Move w (.written i j ver (.ok n) total null) o) : FollowUp w i o := by
  cases move with
  | writtenOk last put =>
    obtain ⟨lists, rfl⟩ := putBackSend_frame put
    obtain ⟨hlast, hshut, hclosed, herror, hempty, hmore⟩ := flushed_followUp _ i _ rfl
    exact ⟨hlast, hshut, hclosed, herror, hempty, hmore⟩
  | quiet hq | idle hq | leave hq | closing hq => cases hq

theorem unaccounted_eq {pc : DoPc} (h : pc.unaccounted = true) :
    ∃ i j ver n total null, pc = .written i j ver (.ok n) total null := by
  cases pc with
  | written i j ver io total null =>
    cases io with
    | ok n => exact ⟨i, j, ver, n, total, null, rfl⟩
    | again | eof | error => cases h
  | _ => cases h

theorem written_accepted {w : World} {i n total : ℕ} {j : Fin 2} {ver : BitVec 32} {null : Bool}
    {o : Outcome} (move : Move w (.written i j ver (.ok n) total null) o) :
    acceptedBytes o.world.log = acceptedBytes w.log ∧
      writtenBytes o.world.log = writtenBytes w.log := by
  have same {next : Option DoPc} {out out' : Outgoing}
      (h : Sent out (.written i j ver (.ok n) total null) out' next) :
      out'.accepted = out.accepted ∧ out'.written = out.written := by
    cases h <;> exact ⟨rfl, rfl⟩
  exact same (move_sent move fun h => by cases h)

/-- The section after a successful writev leaves no list taken. -/
theorem Unsent.rest {s : Sys} {i n total : ℕ} {j : Fin 2} {ver : BitVec 32} {null : Bool}
    {o : Outcome} (inv : Unsent s) (inv' : Unsent (s.resume 0 o))
    (one : s.tasks = [.written i j ver (.ok n) total null])
    (move : Move s.world (.written i j ver (.ok n) total null) o) : Rest o.world.outgoing := by
  have hfine : s.world.outgoing.failed = false := by
    cases hfail : s.world.outgoing.failed with
    | false => rfl
    | true =>
      have hmem : .written i j ver (.ok n) total null ∈ s.tasks := by
        rw [one]
        exact List.mem_singleton.mpr rfl
      obtain ⟨_, _, _, _, _, _, h⟩ := (inv.broken hfail).error _ hmem rfl
      cases h
  have hfine' : o.world.outgoing.failed = false := by
    rcases (move_sent move (fun h => by cases h)).breaks with hsame | ⟨_, _, _, h⟩
    · exact hsame.trans hfine
    · cases h
  refine (stream_iff_rest fun pc hpc => ?_).mp (inv'.fine hfine')
  cases move with
  | writtenOk last put =>
    obtain ⟨l, act, hf, -⟩ := flushed_eq _ _ _
    rw [hf] at hpc
    simp only [Sys.resume, goto, one, List.set_cons_zero, List.mem_singleton] at hpc
    rw [hpc]
    rfl
  | quiet hq | idle hq | leave hq | closing hq => cases hq

end Hwnet.TCPSocket
