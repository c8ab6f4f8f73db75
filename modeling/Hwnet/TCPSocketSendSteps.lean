import Hwnet.TCPSocketStream

set_option autoImplicit false

/-!
# What a step does to the send side

Most steps leave the send side alone. The others are an accepted send, a Shutdown that takes
effect, and the worker on its way from taking a list to the flush callback.
-/
namespace Hwnet.TCPSocket

structure SendPart where
  sendLists : Fin 2 → List SendContext
  slistIdx : Fin 2
  bytes4Send : UInt64
  closedOnFlush : Bool
  shutdown : Bool

def sendPart (s : TCPSocket) : SendPart :=
  ⟨s.sendLists, s.slistIdx, s.bytes4Send, s.closedOnFlush, s.shutdown⟩

def Obs.foreign : Obs → Bool
  | .accepted _ | .written _ | .writeError | .shutdownWrite | .flushCallback _ => false
  | _ => true

/-- The send side is left alone; `closed` and `socketError` are not taken back. -/
structure Aside (w w' : World) : Prop where
  part : w'.sock.sendPart = w.sock.sendPart
  closed : w.sock.closed = true → w'.sock.closed = true
  error : w.sock.socketError = true → w'.sock.socketError = true
  log : ∃ l, w'.log = w.log ++ l ∧ ∀ o ∈ l, o.foreign = true

theorem Aside.refl (w : World) : Aside w w :=
  ⟨rfl, id, id, [], (List.append_nil _).symm, fun _ h => nomatch h⟩

variable {w w' w'' : World}

theorem Aside.trans (h : Aside w w') (h' : Aside w' w'') : Aside w w'' := by
  obtain ⟨l, hl, hf⟩ := h.log
  obtain ⟨l', hl', hf'⟩ := h'.log
  refine ⟨h'.part.trans h.part, h'.closed ∘ h.closed, h'.error ∘ h.error, l ++ l', ?_, ?_⟩
  · rw [hl', hl, List.append_assoc]
  · intro o ho
    exact (List.mem_append.mp ho).elim (hf o) (hf' o)

theorem aside_of_same (part : w'.sock.sendPart = w.sock.sendPart)
    (closed : w'.sock.closed = w.sock.closed) (error : w'.sock.socketError = w.sock.socketError)
    (log : w'.log = w.log) : Aside w w' :=
  ⟨part, closed.trans, error.trans, [], by rw [log, List.append_nil], fun _ h => nomatch h⟩

theorem Aside.note (h : Aside w w') {o : Obs} (ho : o.foreign = true) : Aside w (w'.note o) := by
  refine h.trans ⟨rfl, id, id, [o], rfl, fun x hx => ?_⟩
  rw [List.mem_singleton.mp hx]
  exact ho

theorem Aside.outgoing (h : Aside w w') : w'.outgoing = w.outgoing := by
  obtain ⟨l, hl, hf⟩ := h.log
  refine outgoing_aside (congrArg SendPart.sendLists h.part) (congrArg SendPart.slistIdx h.part)
    hl fun o ho => ?_
  have := hf o ho
  cases o <;> first | rfl | cases this

theorem canWrite_open {s : TCPSocket} (h : s.canWrite = true) :
    s.shutdown = false ∧ s.closed = false ∧ s.socketError = false := by
  simp only [canWrite, Bool.and_eq_true, Bool.not_eq_true'] at h
  exact ⟨h.1.1.1, h.1.1.2, h.1.2⟩

/-! ## The callers -/

theorem wake_aside (h : Aside w w') (work : Bool) : Aside w (wake w' work).1 := by
  rw [wake_eq]
  exact h.trans (aside_of_same rfl rfl rfl rfl)

theorem registerTimerSend_aside (h : Aside w w') : Aside w (registerTimerSend w') := by
  unfold registerTimerSend
  split
  · exact h.trans (aside_of_same rfl rfl rfl rfl)
  · exact h

theorem registerTimerRecv_aside (h : Aside w w') : Aside w (registerTimerRecv w') := by
  unfold registerTimerRecv
  split
  · exact h.trans (aside_of_same rfl rfl rfl rfl)
  · exact h

theorem cancelTimer_aside (h : Aside w w') : Aside w (cancelTimer w') := by
  unfold cancelTimer
  split
  · exact h.trans (aside_of_same rfl rfl rfl rfl)
  · exact h

theorem setSendTimeoutCallback_aside (w : World) (timeout : UInt64) (cb : Option Callback) :
    Aside w (setSendTimeoutCallback w timeout cb) := by
  unfold setSendTimeoutCallback
  dsimp only
  split_ifs
  · exact .refl w
  · exact registerTimerSend_aside (aside_of_same rfl rfl rfl rfl)
  · exact cancelTimer_aside (aside_of_same rfl rfl rfl rfl)
  · exact aside_of_same rfl rfl rfl rfl

theorem setRecvTimeoutCallback_aside (w : World) (timeout : UInt64) (cb : Option Callback) :
    Aside w (setRecvTimeoutCallback w timeout cb) := by
  unfold setRecvTimeoutCallback
  dsimp only
  split_ifs
  · exact .refl w
  · exact registerTimerRecv_aside (aside_of_same rfl rfl rfl rfl)
  · exact cancelTimer_aside (aside_of_same rfl rfl rfl rfl)
  · exact aside_of_same rfl rfl rfl rfl

theorem pushClosure_aside (h : Aside w w') (t : TimerId) : Aside w (pushClosure w' t).1 := by
  refine wake_aside (h.trans ?_) true
  exact aside_of_same rfl rfl rfl rfl

theorem onTimer_aside (w : World) (t : TimerId) : Aside w (onTimer w t).1 := by
  unfold onTimer
  dsimp only
  split_ifs
  · exact pushClosure_aside (pushClosure_aside (.refl w) t) t
  · exact pushClosure_aside (.refl w) t
  · exact pushClosure_aside (.refl w) t
  · exact .refl w

theorem recv_aside (w : World) (buff : Option RecvBuffer) : Aside w (recv w buff).1 := by
  cases buff with
  | none => exact .refl w
  | some buff =>
    have queued : Aside w (queueRecv w buff) := by
      refine Aside.note ?_ rfl
      exact aside_of_same rfl rfl rfl rfl
    unfold recv _recv
    dsimp only
    split_ifs
    · exact .refl w
    · exact .refl w
    · exact .refl w
    · exact wake_aside (registerTimerRecv_aside queued) _
    · exact wake_aside queued _

theorem start_aside (w : World) : Aside w (start w) := by
  unfold start
  split
  · exact .refl w
  · exact aside_of_same rfl rfl rfl rfl

theorem close_aside (w : World) : Aside w (close w).1 := by
  unfold close
  split
  · exact .refl w
  · refine Aside.note ?_ rfl
    refine (cancelTimer_aside (.refl w)).trans ?_
    exact ⟨rfl, fun _ => rfl, id, [], (List.append_nil _).symm, fun _ h => nomatch h⟩

theorem setReady_aside (s : TCPSocket) (event : Event) (err : ℤ) :
    (s.setReady event err).sendPart = s.sendPart ∧ (s.setReady event err).closed = s.closed ∧
      (s.socketError = true → (s.setReady event err).socketError = true) := by
  unfold setReady
  dsimp only
  split_ifs
  all_goals exact ⟨rfl, rfl, by simp⟩

theorem onActive_aside (w : World) (event : Event) (err : ℤ) :
    Aside w (onActive w event err).1 := by
  obtain ⟨part, closed, error⟩ := setReady_aside w.sock event err
  refine wake_aside ?_ _
  exact ⟨part, closed.trans, error, [], (List.append_nil _).symm, fun _ h => nomatch h⟩

def carries (buff : Option Buffer) (len : ℕ) : Bool :=
  buff.any fun buff => decide (0 < if len = 0 then buff.len else len)

/-- A send is refused, or its context is queued and the rest is no business of the send side. -/
theorem sendWith_queues (w : World) (last : Bool) (len : ℕ) (buff : Option Buffer) :
    Aside w (sendWith w last len buff).1 ∨
      ∃ buff' len', 0 < len' ∧ w.sock.closed = false ∧ w.sock.shutdown = false ∧
        w.sock.closedOnFlush = false ∧
        Aside (queueSend w buff' len' last) (sendWith w last len buff).1 ∧
        carries buff len = true := by
  cases buff with
  | none => exact .inl (.refl w)
  | some buff =>
    simp only [sendWith, _send, carries, Option.any_some, decide_eq_true_eq]
    generalize (if len = 0 then buff.len else len) = n
    split
    · exact .inl (.refl w)
    · rename_i hn
      split
      · exact .inl (.refl w)
      · rename_i h
        simp only [Bool.or_eq_true, not_or, Bool.not_eq_true] at h
        refine .inr ⟨buff, n, by omega, h.1.1, h.1.2, h.2, ?_, by omega⟩
        split
        · exact wake_aside (registerTimerSend_aside (.refl _)) _
        · exact wake_aside (.refl _) _

/-! ## The worker -/

/-- Between taking a list and the flush callback. -/
def DoPc.tracked : DoPc → Bool
  | .writev .. | .written .. | .sendAction _ (.callFlushCallback _ _) => true
  | _ => false

structure Elsewhere (w : World) (pc : DoPc) (o : Outcome) : Prop where
  world : Aside w o.world
  before : pc.tracked = false
  after : ∀ p ∈ o.next, p.tracked = false
  closing : ∀ i, pc = .closing i → o.world.sock.closed = true

variable {pc : DoPc} {i : ℕ} {o : Outcome}

def DoPc.plain (pc : DoPc) : Prop := pc.tracked = false ∧ ∀ i, pc ≠ .closing i

theorem elsewhere_goto {pc' : DoPc} (hpc : pc.plain) (h : Aside w w')
    (hn : pc'.tracked = false) : Elsewhere w pc (goto w' pc') :=
  ⟨h, hpc.1, fun p hp => by cases hp; exact hn, fun i hi => absurd hi (hpc.2 i)⟩

theorem evaluate_elsewhere (hpc : pc.plain) (h : Aside w w') (i : ℕ) :
    Elsewhere w pc (evaluate w' i) := by
  unfold evaluate
  dsimp only
  split_ifs
  · exact elsewhere_goto hpc h rfl
  · refine ⟨h.trans ?_, hpc.1, fun p hp => (nomatch hp), fun i hi => absurd hi (hpc.2 i)⟩
    exact aside_of_same rfl rfl rfl rfl
  · exact elsewhere_goto hpc h rfl

theorem checkTimeoutEnd_elsewhere (hpc : pc.plain) (h : Aside w w') (i : ℕ) (t : TimerId) :
    Elsewhere w pc (checkTimeoutEnd w' i t) := by
  unfold checkTimeoutEnd
  split
  · refine evaluate_elsewhere hpc (h.trans ?_) i
    exact aside_of_same rfl rfl rfl rfl
  · exact evaluate_elsewhere hpc h i

theorem checkTimeoutRecv_elsewhere (hpc : pc.plain) (h : Aside w w') (i : ℕ) (t : TimerId) :
    Elsewhere w pc (checkTimeoutRecv w' i t) := by
  unfold checkTimeoutRecv
  split
  · refine elsewhere_goto hpc (Aside.note (h.trans ?_) rfl) rfl
    exact aside_of_same rfl rfl rfl rfl
  · exact checkTimeoutEnd_elsewhere hpc h i t

theorem checkTimeout_elsewhere (hpc : pc.plain) (h : Aside w w') (i : ℕ) (t : TimerId) :
    Elsewhere w pc (checkTimeout w' i t) := by
  unfold checkTimeout
  split
  · exact evaluate_elsewhere hpc h i
  · split
    · refine elsewhere_goto hpc (Aside.note (h.trans ?_) rfl) rfl
      exact aside_of_same rfl rfl rfl rfl
    · exact checkTimeoutRecv_elsewhere hpc h i t

theorem doLock_elsewhere (hpc : pc.plain) (w : World) (i : ℕ) : Elsewhere w pc (doLock w i) := by
  unfold doLock
  split
  · exact evaluate_elsewhere hpc (.refl w) i
  · refine checkTimeout_elsewhere hpc ?_ i _
    exact aside_of_same rfl rfl rfl rfl

theorem afterRecv_tracked (i : ℕ) (cw : Bool) : (afterRecv i cw).tracked = false := by
  cases cw <;> rfl

theorem recvTake_elsewhere {b : Build} {cw : Bool} (h : recvTake b w i cw = some o) :
    Elsewhere w (.recvInWorker i cw) o := by
  have hpc : (DoPc.recvInWorker i cw).plain := ⟨rfl, fun _ => nofun⟩
  unfold recvTake at h
  dsimp only at h
  split_ifs at h
  · cases h; exact elsewhere_goto hpc (.refl w) (afterRecv_tracked i cw)
  · cases h; exact elsewhere_goto hpc (.refl w) rfl
  · cases h; exact elsewhere_goto hpc (aside_of_same rfl rfl rfl rfl) rfl
  · split at h
    · cases h
    · cases h; exact elsewhere_goto hpc (aside_of_same rfl rfl rfl rfl) rfl

theorem readStep_elsewhere {cw : Bool} {cb : Option Callback} {ver : BitVec 32} {hold : Hold}
    {io : Io} (h : readStep w i cw cb ver hold io = some o) :
    Elsewhere w (.read i cw cb ver hold) o := by
  have hpc : (DoPc.read i cw cb ver hold).plain := ⟨rfl, fun _ => nofun⟩
  cases io <;> simp only [readStep] at h
  case ok n =>
    split at h
    · cases h
      refine elsewhere_goto hpc (Aside.note ?_ rfl) rfl
      exact aside_of_same rfl rfl rfl rfl
    · cases h
  case again =>
    split at h
    · cases h
    · cases h; exact elsewhere_goto hpc (.refl w) rfl
  case eof errno =>
    split at h
    · cases h; exact elsewhere_goto hpc (.refl w) rfl
    · cases h
  case error errno => cases h; exact elsewhere_goto hpc (.refl w) rfl

theorem noteReceived_aside (h : Aside w w') (cb : Option Callback)
    (buff : RecvBuffer) (n : ℕ) : Aside w (noteReceived w' cb buff n) := by
  cases cb with
  | none => exact h
  | some cb => exact h.note rfl

theorem deliverStep_elsewhere {n : ℕ} {cw : Bool} {cb : Option Callback} {hold : Hold}
    (h : deliverStep w i cw cb hold n = some o) : Elsewhere w (.deliver i cw cb hold n) o := by
  have hpc : (DoPc.deliver i cw cb hold n).plain := ⟨rfl, fun _ => nofun⟩
  unfold deliverStep at h
  split at h
  · cases h; exact elsewhere_goto hpc (noteReceived_aside (.refl w) _ _ _) rfl
  · split at h
    · cases h; exact elsewhere_goto hpc (.refl w) rfl
    · split at h
      · cases h
      · dsimp only at h
        split at h <;> cases h
        · refine elsewhere_goto hpc (noteReceived_aside ?_ _ _ _) (afterRecv_tracked i cw)
          exact aside_of_same rfl rfl rfl rfl
        · refine elsewhere_goto hpc (noteReceived_aside ?_ _ _ _) rfl
          exact aside_of_same rfl rfl rfl rfl

theorem recvFinishStep_elsewhere (w : World) (i : ℕ) (cw : Bool) (hold : Hold) :
    Elsewhere w (.recvFinish i cw hold) (recvFinishStep w i cw hold) := by
  refine elsewhere_goto ⟨rfl, fun _ => nofun⟩ ?_ (afterRecv_tracked i cw)
  obtain ⟨lists, hl⟩ := hold.finish_frame
    (if 0 < w.sock.recvTimeout then { w.sock with lastRecvTime := w.now } else w.sock)
  rw [hl]
  split
  · exact aside_of_same rfl rfl rfl rfl
  · exact aside_of_same rfl rfl rfl rfl

theorem readFailedStep_elsewhere (w : World) (i : ℕ) (cw : Bool) (ver : BitVec 32) (hold : Hold)
    (err : Option ℤ) :
    Elsewhere w (.readFailed i cw ver hold err) (readFailedStep w i cw ver hold err) := by
  have hpc : (DoPc.readFailed i cw ver hold err).plain := ⟨rfl, fun _ => nofun⟩
  cases err with
  | some errno =>
    refine elsewhere_goto hpc ?_ rfl
    exact ⟨rfl, id, fun _ => rfl, [], (List.append_nil _).symm, fun _ h => nomatch h⟩
  | none =>
    refine elsewhere_goto hpc ?_ (afterRecv_tracked i cw)
    obtain ⟨lists, hl⟩ := hold.restore_frame w.sock
    rw [hl]
    split
    · exact aside_of_same rfl rfl rfl rfl
    · exact aside_of_same rfl rfl rfl rfl

theorem recvErrorStep_elsewhere (w : World) (i : ℕ) (cw : Bool) (cb : Option Callback) :
    Elsewhere w (.recvError i cw cb) (recvErrorStep w i cw cb) := by
  have hpc : (DoPc.recvError i cw cb).plain := ⟨rfl, fun _ => nofun⟩
  cases cb with
  | some cb => exact elsewhere_goto hpc ((Aside.refl w).note rfl) (afterRecv_tracked i cw)
  | none =>
    refine ⟨close_aside w, rfl, fun p hp => ?_, fun i hi => absurd hi (hpc.2 i)⟩
    cases hp
    exact afterRecv_tracked i cw

theorem doBody_elsewhere (w : World) (i : ℕ) (cr cw : Bool) :
    Elsewhere w (.body i cr cw) (doBody w i cr cw) := by
  unfold doBody
  split_ifs
  all_goals exact elsewhere_goto ⟨rfl, fun _ => nofun⟩ (.refl w) rfl

theorem closingStep_elsewhere (w : World) (i : ℕ) :
    Elsewhere w (.closing i) (closingStep w i) := by
  refine ⟨close_aside w, rfl, fun p hp => ?_, fun _ _ => close_closed w⟩
  cases hp
  rfl

/-- The list is taken only by a worker that may write. -/
theorem sendTake_cases (w : World) (i : ℕ) :
    Elsewhere w (.sendInWorker i) (sendTake w i) ∨
      w.sock.canWrite = true ∧
        sendTake w i = goto { w with sock := { w.sock with slistIdx := flip w.sock.slistIdx } }
          (.writev i w.sock.slistIdx w.sock.writeableVer) := by
  have hpc : (DoPc.sendInWorker i).plain := ⟨rfl, fun _ => nofun⟩
  unfold sendTake
  dsimp only
  split_ifs with hcan hhigh
  · exact .inl (elsewhere_goto hpc (.refl w) rfl)
  · exact .inl (elsewhere_goto hpc (.refl w) rfl)
  · exact .inr ⟨by simpa using hcan, rfl⟩

theorem sendActionStep_elsewhere (w : World) (i : ℕ) {act : SendAction}
    (hact : (DoPc.sendAction i act).tracked = false) :
    Elsewhere w (.sendAction i act) (sendActionStep w i act) := by
  have hpc : (DoPc.sendAction i act).plain := ⟨hact, fun _ => nofun⟩
  cases act with
  | nothing => exact elsewhere_goto hpc (.refl w) rfl
  | callHighwaterCallback cb bytes =>
    cases cb with
    | none => exact elsewhere_goto hpc (.refl w) rfl
    | some cb => exact elsewhere_goto hpc ((Aside.refl w).note rfl) rfl
  | callFlushCallback cb last => cases hact
  | callErrorCallback cb =>
    cases cb with
    | none => exact elsewhere_goto hpc (.refl w) rfl
    | some cb => exact elsewhere_goto hpc ((Aside.refl w).note rfl) rfl

inductive WorkerStep (w : World) : DoPc → Outcome → Prop where
  | aside {pc : DoPc} {o : Outcome} (h : Elsewhere w pc o) : WorkerStep w pc o
  | take {i : ℕ} (can : w.sock.canWrite = true) : WorkerStep w (.sendInWorker i)
      (goto { w with sock := { w.sock with slistIdx := flip w.sock.slistIdx } }
        (.writev i w.sock.slistIdx w.sock.writeableVer))
  | writes {pc : DoPc} {o : Outcome} (sends : pc.sends = true) (move : Move w pc o) :
      WorkerStep w pc o
  | calls {i : ℕ} {cb : Callback} {last : Bool} :
      WorkerStep w (.sendAction i (.callFlushCallback cb last))
        (goto (w.note (.flushCallback cb)) (if last then .closing i else .lock (i + 1)))
  | doClose : WorkerStep w .doClose (doCloseLocked w)

theorem doStep_worker {b : Build} {io : Io} (h : doStep b w io pc = some o) :
    WorkerStep w pc o := by
  cases hs : pc.sends with
  | true => exact .writes hs (doStep_move h)
  | false =>
    cases pc <;> simp only [doStep, Option.some.injEq] at h
    case queued => subst h; exact .aside (elsewhere_goto ⟨rfl, fun _ h => by cases h⟩ (.refl w) rfl)
    case lock i => subst h; exact .aside (doLock_elsewhere ⟨rfl, fun _ h => by cases h⟩ w i)
    case sendTimeout i t =>
      subst h; exact .aside (checkTimeoutRecv_elsewhere ⟨rfl, fun _ h => by cases h⟩ (.refl w) i t)
    case recvTimeout i t =>
      subst h; exact .aside (checkTimeoutEnd_elsewhere ⟨rfl, fun _ h => by cases h⟩ (.refl w) i t)
    case body i cr cw => subst h; exact .aside (doBody_elsewhere w i cr cw)
    case recvInWorker => exact .aside (recvTake_elsewhere h)
    case read => exact .aside (readStep_elsewhere h)
    case deliver => exact .aside (deliverStep_elsewhere h)
    case recvFinish => subst h; exact .aside (recvFinishStep_elsewhere w _ _ _)
    case readFailed => subst h; exact .aside (readFailedStep_elsewhere w _ _ _ _ _)
    case recvError => subst h; exact .aside (recvErrorStep_elsewhere w _ _ _)
    case sendInWorker i =>
      subst h
      rcases sendTake_cases w i with h | ⟨hcan, heq⟩
      · exact .aside h
      · rw [heq]; exact .take hcan
    case writev => cases hs
    case written => cases hs
    case enable i =>
      subst h
      refine .aside (elsewhere_goto ⟨rfl, fun _ h => by cases h⟩ ?_ rfl)
      exact aside_of_same rfl rfl rfl rfl
    case sendAction i act =>
      subst h
      cases ht : (DoPc.sendAction i act).tracked with
      | false => exact .aside (sendActionStep_elsewhere w i ht)
      | true =>
        cases act <;> first | exact .calls | cases ht
    case closing i => subst h; exact .aside (closingStep_elsewhere w i)
    case doClose => subst h; exact .doClose
    case closeCallback cb =>
      cases cb with
      | none =>
        cases h
        exact .aside ⟨.refl w, rfl, fun p hp => (by cases hp), fun i hi => by cases hi⟩
      | some cb =>
        cases h
        exact .aside ⟨(Aside.refl w).note rfl, rfl, fun p hp => (by cases hp),
          fun i hi => by cases hi⟩

/-! ## Steps of the system -/

def Label.caller : Label → Bool
  | .worker _ _ => false
  | _ => true

def Label.offers : Label → Bool
  | .send buff len | .sendAndClose buff len => carries buff len
  | _ => false

inductive SendStep (s : Sys) : Label → Sys → Prop where
  | aside {a : Label} {s' : Sys} (world : Aside s.world s'.world)
      (away : ∀ k io pc, a = .worker k io → s.tasks[k]? = some pc → pc.tracked = false)
      (tasks : s'.tasks.filter DoPc.tracked = s.tasks.filter DoPc.tracked)
      (closing : ∀ i, .closing i ∈ s.tasks →
        .closing i ∈ s'.tasks ∨ s'.world.sock.closed = true) : SendStep s a s'
  | sent {a : Label} {s' : Sys} (caller : a.caller = true) (buff : Buffer) (len : ℕ)
      (last : Bool) (pos : 0 < len)
      (opened : s.world.sock.closed = false) (write : s.world.sock.shutdown = false)
      (more : s.world.sock.closedOnFlush = false)
      (world : Aside (queueSend s.world buff len last) s'.world) (tasks : s'.tasks = s.tasks)
      (offers : a.offers = true) : SendStep s a s'
  | shutdown (opened : s.world.sock.closed = false) (write : s.world.sock.shutdown = false) :
      SendStep s .shutdown (s.lift (markShutdown s.world))
  | take {k i : ℕ} {io : Io} (at_ : s.tasks[k]? = some (.sendInWorker i))
      (can : s.world.sock.canWrite = true) :
      SendStep s (.worker k io) (s.resume k
        (goto { s.world with sock := { s.world.sock with slistIdx := flip s.world.sock.slistIdx } }
          (.writev i s.world.sock.slistIdx s.world.sock.writeableVer)))
  | writes {k : ℕ} {io : Io} {pc : DoPc} {o : Outcome} (at_ : s.tasks[k]? = some pc)
      (sends : pc.sends = true) (move : Move s.world pc o) :
      SendStep s (.worker k io) (s.resume k o)
  | calls {k i : ℕ} {io : Io} {cb : Callback} {last : Bool}
      (at_ : s.tasks[k]? = some (.sendAction i (.callFlushCallback cb last))) :
      SendStep s (.worker k io) (s.resume k
        (goto (s.world.note (.flushCallback cb)) (if last then .closing i else .lock (i + 1))))
  | doClose {k : ℕ} {io : Io} (at_ : s.tasks[k]? = some .doClose) :
      SendStep s (.worker k io) (s.resume k (doCloseLocked s.world))

theorem resume_filter {s : Sys} {k : ℕ} (p : DoPc → Bool) (at_ : s.tasks[k]? = some pc)
    (hpc : p pc = false) (hn : ∀ q ∈ o.next, p q = false) :
    (s.resume k o).tasks.filter p = s.tasks.filter p := by
  unfold Sys.resume
  cases hnext : o.next with
  | none => exact Machine.filter_eraseIdx p at_ hpc
  | some q => exact Machine.filter_set p at_ hpc (hn q hnext)

theorem mem_resume {s : Sys} {k : ℕ} {q : DoPc} (at_ : s.tasks[k]? = some pc) (hq : q ∈ s.tasks)
    (ne : q ≠ pc) (o : Outcome) : q ∈ (s.resume k o).tasks := by
  unfold Sys.resume
  cases o.next with
  | none => exact Machine.mem_eraseIdx_of_ne at_ hq ne
  | some r => exact Machine.mem_set_of_ne at_ hq ne r

theorem Label.caller_away {a : Label} (h : a.caller = true) (k : ℕ) (io : Io) :
    a ≠ .worker k io := by
  rintro rfl
  cases h

theorem sendStep_of_aside {s s' : Sys} {a : Label} (caller : a.caller = true)
    (h : Aside s.world s'.world) (tasks : s'.tasks = s.tasks) : SendStep s a s' :=
  .aside h (fun k io _ ha => absurd ha (Label.caller_away caller k io)) (congrArg _ tasks)
    fun _ hi => .inl (tasks ▸ hi)

theorem sendWith_step (s : Sys) {a : Label} (caller : a.caller = true) (last : Bool) (len : ℕ)
    (buff : Option Buffer) (offers : a.offers = carries buff len) :
    SendStep s a (s.unlock (sendWith s.world last len buff)) := by
  rcases sendWith_queues s.world last len buff with h | ⟨buff', len', pos, ho, hs, hm, h, hoff⟩
  · exact sendStep_of_aside caller h rfl
  · exact .sent caller buff' len' last pos ho hs hm h rfl (offers.trans hoff)

theorem shutdownCall_step (s : Sys) :
    SendStep s .shutdown (s.lift (shutdownCall s.world)) := by
  unfold shutdownCall
  split
  · exact sendStep_of_aside rfl (.refl _) rfl
  · rename_i h
    simp only [Bool.or_eq_true, not_or, Bool.not_eq_true] at h
    exact .shutdown h.1 h.2

theorem workerStep_step {b : Build} {s s' : Sys} {k : ℕ} {io : Io}
    (h : workerStep b s k io = some s') : SendStep s (.worker k io) s' := by
  unfold workerStep at h
  simp only [Option.map_eq_some_iff, Option.bind_eq_some_iff] at h
  obtain ⟨o, ⟨pc, hpc, ho⟩, rfl⟩ := h
  cases doStep_worker ho with
  | aside he =>
    refine .aside he.world ?_ (resume_filter _ hpc he.before he.after) fun i hi => ?_
    · rintro _ _ q ⟨⟩ hq
      cases hpc.symm.trans hq
      exact he.before
    by_cases hne : pc = .closing i
    · exact .inr (he.closing i hne)
    · exact .inl (mem_resume hpc hi (Ne.symm hne) o)
  | take can => exact .take hpc can
  | writes sends move => exact .writes hpc sends move
  | calls => exact .calls hpc
  | doClose => exact .doClose hpc

/-- The inversion of a step, as far as the send side is concerned. -/
theorem step_sendStep {b : Build} {s s' : Sys} {a : Label} (h : step b s a = some s') :
    SendStep s a s' := by
  cases a <;> simp only [step, Option.some.injEq] at h
  case start => subst h; exact sendStep_of_aside rfl (start_aside _) rfl
  case send => subst h; exact sendWith_step _ rfl _ _ _ rfl
  case sendAndClose => subst h; exact sendWith_step _ rfl _ _ _ rfl
  case recv => subst h; exact sendStep_of_aside rfl (recv_aside _ _) rfl
  case shutdown => subst h; exact shutdownCall_step s
  case close => subst h; exact sendStep_of_aside rfl (close_aside _) rfl
  case setSendTimeoutCallback =>
    subst h; exact sendStep_of_aside rfl (setSendTimeoutCallback_aside _ _ _) rfl
  case setRecvTimeoutCallback =>
    subst h; exact sendStep_of_aside rfl (setRecvTimeoutCallback_aside _ _ _) rfl
  case onTimer t =>
    split at h
    · cases h; exact sendStep_of_aside rfl (onTimer_aside _ _) rfl
    · cases h
  case collect event =>
    unfold collectStep at h
    split at h
    · cases h; exact sendStep_of_aside rfl (aside_of_same rfl rfl rfl rfl) rfl
    · cases h
  case disable =>
    unfold disableStep at h
    split at h
    · cases h; exact sendStep_of_aside rfl (aside_of_same rfl rfl rfl rfl) rfl
    · cases h
  case onActive err =>
    unfold onActiveStep at h
    split at h
    · cases h; exact sendStep_of_aside rfl (onActive_aside _ _ _) rfl
    · cases h
  case post =>
    unfold postStep at h
    split at h
    · cases h
      refine .aside (.refl _) (fun _ _ _ h => by cases h) ?_ fun i hi =>
        .inl (List.mem_append_left _ hi)
      simp [DoPc.tracked]
    · cases h
  case worker k io => exact workerStep_step h
  all_goals subst h; exact sendStep_of_aside rfl (aside_of_same rfl rfl rfl rfl) rfl

end Hwnet.TCPSocket
