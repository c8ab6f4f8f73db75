import Hwnet.TCPSocketSystem

set_option autoImplicit false

/-!
# What a step can do

Every section of the API and of the timer thread is one of the ten `Section`s, and every worker
step one of the `Move`s. An invariant is checked against these two lists only.
-/
namespace Hwnet.TCPSocket

def Obs.isCall : Obs → Bool
  | .flushCallback _ | .errorCallback _ _ | .highWaterCallback _ _ => true
  | .sendTimeoutCallback _ | .recvTimeoutCallback _ => true
  | _ => false

def SameDurations (t t' : Timeouts) : Prop :=
  t'.sendTimeout = t.sendTimeout ∧ t'.recvTimeout = t.recvTimeout

/-- `w'` differs from `w` by timeouts and by callbacks called; no timeout of a closed socket is
turned on. -/
structure Retimed (w w' : World) : Prop where
  sock : ∃ t, w'.sock = { w.sock with toTimeouts := t }
  kernel : w'.kernel = w.kernel
  log : ∃ l, w'.log = w.log ++ l ∧ ∀ o ∈ l, o.isCall
  late : w.sock.closed = true → SameDurations w.sock.toTimeouts w'.sock.toTimeouts
  memory : w'.memory = w.memory

theorem Retimed.refl (w : World) : Retimed w w :=
  ⟨⟨_, rfl⟩, rfl, ⟨[], by simp, by simp⟩, fun _ => ⟨rfl, rfl⟩, rfl⟩

theorem Retimed.canRead {w w' : World} (h : Retimed w w') : w'.sock.canRead = w.sock.canRead := by
  obtain ⟨t, hs⟩ := h.sock
  rw [hs]; rfl

theorem Retimed.canWrite {w w' : World} (h : Retimed w w') :
    w'.sock.canWrite = w.sock.canWrite := by
  obtain ⟨t, hs⟩ := h.sock
  rw [hs]; rfl

theorem Retimed.closed {w w' : World} (h : Retimed w w') : w'.sock.closed = w.sock.closed := by
  obtain ⟨t, hs⟩ := h.sock
  rw [hs]

theorem Retimed.doing {w w' : World} (h : Retimed w w') : w'.sock.doing = w.sock.doing := by
  obtain ⟨t, hs⟩ := h.sock
  rw [hs]

theorem Retimed.timeouts {w w' : World} (h : Retimed w w') (t : Timeouts) (now n : ℕ)
    (c : List TimerId) (late : w'.sock.closed = true → SameDurations w'.sock.toTimeouts t) :
    Retimed w { w' with
      sock := { w'.sock with toTimeouts := t }
      now := now
      timers := n
      canceled := c } := by
  obtain ⟨t', hs⟩ := h.sock
  refine ⟨⟨t, by rw [hs]⟩, h.kernel, h.log, fun hc => ?_, h.memory⟩
  have h1 := h.late hc
  have h2 := late (h.closed.trans hc)
  exact ⟨h2.1.trans h1.1, h2.2.trans h1.2⟩

theorem Retimed.note {w w' : World} (h : Retimed w w') {o : Obs} (ho : o.isCall) :
    Retimed w (w'.note o) := by
  obtain ⟨hs, hk, ⟨l, hl, hlt⟩, hd, hm⟩ := h
  refine ⟨hs, hk, ⟨l ++ [o], by simp [World.note, hl], ?_⟩, hd, hm⟩
  intro x hx
  rcases List.mem_append.mp hx with hx | hx
  · exact hlt x hx
  · rw [List.mem_singleton.mp hx]; exact ho

theorem registerTimerSend_retimed {w w' : World} (h : Retimed w w') :
    Retimed w (registerTimerSend w') := by
  unfold registerTimerSend
  split
  · exact h.timeouts _ _ _ _ fun _ => ⟨rfl, rfl⟩
  · exact h

theorem registerTimerRecv_retimed {w w' : World} (h : Retimed w w') :
    Retimed w (registerTimerRecv w') := by
  unfold registerTimerRecv
  split
  · exact h.timeouts _ _ _ _ fun _ => ⟨rfl, rfl⟩
  · exact h

theorem cancelTimer_retimed {w w' : World} (h : Retimed w w') : Retimed w (cancelTimer w') := by
  unfold cancelTimer
  split
  · exact h.timeouts _ _ _ _ fun _ => ⟨rfl, rfl⟩
  · exact h

theorem setSendTimeoutCallback_retimed (w : World) (timeout : UInt64) (cb : Option Callback) :
    Retimed w (setSendTimeoutCallback w timeout cb) := by
  unfold setSendTimeoutCallback
  split
  · exact .refl w
  · rename_i hc
    have h := fun t => (Retimed.refl w).timeouts t w.now w.timers w.canceled (absurd · hc)
    dsimp only
    split_ifs
    · exact registerTimerSend_retimed (h _)
    · exact cancelTimer_retimed (h _)
    · exact h _

theorem setRecvTimeoutCallback_retimed (w : World) (timeout : UInt64) (cb : Option Callback) :
    Retimed w (setRecvTimeoutCallback w timeout cb) := by
  unfold setRecvTimeoutCallback
  split
  · exact .refl w
  · rename_i hc
    have h := fun t => (Retimed.refl w).timeouts t w.now w.timers w.canceled (absurd · hc)
    dsimp only
    split_ifs
    · exact registerTimerRecv_retimed (h _)
    · exact cancelTimer_retimed (h _)
    · exact h _

/-! ## Sections -/

inductive Section (w : World) : World × Bool → Prop where
  | retimed {w' : World} (h : Retimed w w') : Section w (w', false)
  | timer {w' : World} (h : Retimed w w')
      (due : 0 < w.sock.sendTimeout ∨ 0 < w.sock.recvTimeout) : Section w (wake w' true)
  | set (t : Settings) : Section w ({ w with sock := { w.sock with toSettings := t } }, false)
  | sent (buff : Buffer) (len : ℕ) (last : Bool) {w' : World} (pos : 0 < len)
      (opened : w.sock.closed = false) (write : w.sock.shutdown = false)
      (more : w.sock.closedOnFlush = false) (h : Retimed (queueSend w buff len last) w') :
      Section w (wake w' (w'.sock.writeable || w'.sock.highWater))
  | posted (buff : RecvBuffer) {w' : World} (pos : 0 < buff.len) (opened : w.sock.closed = false)
      (h : Retimed (queueRecv w buff) w') : Section w (wake w' w'.sock.readable)
  | shutdown (opened : w.sock.closed = false) (write : w.sock.shutdown = false) :
      Section w (markShutdown w, false)
  | closed {w' : World} (opened : w.sock.closed = false) (h : Retimed w w')
      (sendTimeout : w'.sock.sendTimeout = 0) (recvTimeout : w'.sock.recvTimeout = 0) :
      Section w (markClosed w', w.sock.closeCallback.isSome && !w.sock.doing)
  | started (fresh : w.sock.started = false) : Section w
      ({ w with sock := { w.sock with started := true }, kernel := w.kernel.add }, false)
  | arrive (bytes : List UInt8) (eof : Bool) :
      Section w ({ w with kernel := w.kernel.arrive bytes eof }, false)
  | writable : Section w ({ w with kernel := w.kernel.writable }, false)

theorem onTimer_section (w : World) (t : TimerId) : Section w (onTimer w t) := by
  have h := fun l => (Retimed.refl w).timeouts { w.sock.toTimeouts with closures := l } w.now
    w.timers w.canceled fun _ => ⟨rfl, rfl⟩
  have two (w : World) (t : TimerId) :
      ((pushClosure (pushClosure w t).1 t).1,
        (pushClosure w t).2 || (pushClosure (pushClosure w t).1 t).2) =
      wake { w with sock := { w.sock with closures := w.sock.closures ++ [t] ++ [t] } } true := by
    cases hd : w.sock.doing <;> simp [pushClosure, wake, hd]
  have send (hd : sendExpired w = true) : 0 < w.sock.sendTimeout := by
    simp only [sendExpired, Bool.and_eq_true, decide_eq_true_eq] at hd
    exact hd.1.1.1
  have recv (hd : recvExpired w = true) : 0 < w.sock.recvTimeout := by
    simp only [recvExpired, Bool.and_eq_true, decide_eq_true_eq] at hd
    exact hd.1.1.1
  unfold onTimer
  dsimp only
  split_ifs with hs hr hr
  · rw [two]; exact .timer (h _) (.inl (send hs))
  · exact .timer (h _) (.inl (send hs))
  · rw [Bool.false_or]; exact .timer (h _) (.inr (recv hr))
  · exact .retimed (.refl w)

theorem _send_section (w : World) (buff : Buffer) (len : ℕ) (last : Bool) (pos : 0 < len) :
    Section w (_send w buff len last) := by
  unfold _send
  split
  · exact .retimed (.refl w)
  · rename_i h
    simp only [Bool.or_eq_true, not_or, Bool.not_eq_true] at h
    refine .sent buff len last pos h.1.1 h.1.2 h.2 ?_
    split
    · exact registerTimerSend_retimed (.refl _)
    · exact .refl _

theorem sendWith_section (w : World) (last : Bool) (len : ℕ) (buff : Option Buffer) :
    Section w (sendWith w last len buff) := by
  cases buff with
  | none => exact .retimed (.refl w)
  | some buff =>
    simp only [sendWith]
    generalize (if len = 0 then buff.len else len) = n
    split
    · exact .retimed (.refl w)
    · exact _send_section w buff n last (by omega)

theorem recv_section (w : World) (buff : Option RecvBuffer) : Section w (recv w buff) := by
  cases buff with
  | none => exact .retimed (.refl w)
  | some buff =>
    unfold recv _recv
    dsimp only
    split_ifs with h0 h1 h2
    · exact .retimed (.refl w)
    · exact .retimed (.refl w)
    · exact .retimed (.refl w)
    · exact .posted buff (by omega) (by simpa using h1) (registerTimerRecv_retimed (.refl _))
    · exact .posted buff (by omega) (by simpa using h1) (.refl _)

theorem shutdownCall_section (w : World) : Section w (shutdownCall w, false) := by
  unfold shutdownCall
  split
  · exact .retimed (.refl w)
  · rename_i h
    simp only [Bool.or_eq_true, not_or, Bool.not_eq_true] at h
    exact .shutdown h.1 h.2

theorem close_section (w : World) : Section w (close w) := by
  unfold close
  split
  · exact .retimed (.refl w)
  · rename_i h
    have hc := cancelTimer_retimed (Retimed.refl w)
    have hs : ((cancelTimer w).sock.closeCallback.isSome && !(cancelTimer w).sock.doing) =
        (w.sock.closeCallback.isSome && !w.sock.doing) := by
      obtain ⟨t, ht⟩ := hc.sock
      rw [ht]
    dsimp only
    rw [hs]
    exact .closed (by simpa using h) (hc.timeouts _ _ _ _ fun h' => absurd (hc.closed ▸ h') h)
      rfl rfl

theorem start_section (w : World) : Section w (start w, false) := by
  unfold start
  split
  · exact .retimed (.refl w)
  · rename_i fresh
    exact .started (by simpa using fresh)

/-! ## Moves of a worker -/

/-- Outside the two system calls, their locked sections, `Enable` and the way to the close
callback. -/
def DoPc.quiet : DoPc → Bool
  | .read .. | .readFailed .. | .writev .. | .written .. | .enable _ => false
  | .doClose | .closeCallback _ => false
  | _ => true

inductive Move (w : World) : DoPc → Outcome → Prop where
  | quiet {pc pc' : DoPc} {w' : World} (hq : pc.quiet) (hq' : pc'.quiet) (h : Retimed w w') :
      Move w pc (goto w' pc')
  | idle {pc : DoPc} {w' : World} (hq : pc.quiet) (h : Retimed w w')
      (opened : w.sock.closed = false) (read : w.sock.canRead = false)
      (write : w.sock.canWrite = false) :
      Move w pc ⟨{ w' with sock := { w'.sock with doing := false } }, false, none⟩
  | leave {pc : DoPc} {w' : World} (hq : pc.quiet) (h : Retimed w w')
      (closed : w.sock.closed = true) : Move w pc (goto w' .doClose)
  | takeFront {i : ℕ} {cw : Bool} {front : RecvBuffer} {rest : List RecvBuffer}
      (ready : w.sock.readable = true) (fine : w.sock.socketError = false)
      (list : w.sock.recvList = front :: rest) :
      Move w (.recvInWorker i cw)
        (goto { w with sock := w.sock.setRecvList w.sock.rlistIdx rest }
          (.read i cw w.sock.recvCallback w.sock.readableVer (.front front)))
  | takeList {i : ℕ} {cw : Bool} (ready : w.sock.readable = true)
      (fine : w.sock.socketError = false) :
      Move w (.recvInWorker i cw)
        (goto { w with sock := { w.sock with rlistIdx := flip w.sock.rlistIdx } }
          (.read i cw w.sock.recvCallback w.sock.readableVer (.list w.sock.rlistIdx)))
  | readOk {i n : ℕ} {cw : Bool} {cb : Option Callback} {ver : BitVec 32} {hold : Hold}
      (pos : 0 < n) (fits : n ≤ Scattered.capacity (hold.buffers w.sock))
      (le : n ≤ w.kernel.inbox.length) :
      Move w (.read i cw cb ver hold)
        (goto (({ w with
            kernel := { w.kernel with inbox := w.kernel.inbox.drop n }
            memory := Scattered.scatter w.memory (hold.buffers w.sock) (w.kernel.inbox.take n) } :
          World).note (.read (w.kernel.inbox.take n))) (.deliver i cw cb hold n))
  | readAgain {i : ℕ} {cw : Bool} {cb : Option Callback} {ver : BitVec 32} {hold : Hold}
      (unready : w.kernel.readReady = false) :
      Move w (.read i cw cb ver hold) (goto w (.readFailed i cw ver hold none))
  | readError {i : ℕ} {cw : Bool} {cb : Option Callback} {ver : BitVec 32} {hold : Hold}
      (errno : ℤ) :
      Move w (.read i cw cb ver hold) (goto w (.readFailed i cw ver hold (some errno)))
  | deliverFront {i n : ℕ} {cw : Bool} {cb : Option Callback} {buff : RecvBuffer} :
      Move w (.deliver i cw cb (.front buff) n)
        (goto (noteReceived w cb buff n) (.recvFinish i cw (.front buff)))
  | deliverList {i n : ℕ} {cw : Bool} {cb : Option Callback} {j : Fin 2}
      {front : RecvBuffer} {rest : List RecvBuffer} {pc' : DoPc}
      (list : w.sock.recvLists j = front :: rest)
      (next : pc' = .deliver i cw cb (.list j) (n - front.len) ∨
        w.sock.closed = true ∧ pc' = afterRecv i cw) :
      Move w (.deliver i cw cb (.list j) n)
        (goto (noteReceived { w with sock := w.sock.setRecvList j rest } cb front
          (min n front.len)) pc')
  | recvFinish {i : ℕ} {cw : Bool} {hold : Hold} (last : ℕ) :
      Move w (.recvFinish i cw hold)
        (goto { w with sock := hold.finish { w.sock with lastRecvTime := last } } (afterRecv i cw))
  | restoreClear {i : ℕ} {cw : Bool} {ver : BitVec 32} {hold : Hold}
      (same : ver = w.sock.readableVer) :
      Move w (.readFailed i cw ver hold none)
        (goto { w with sock := { hold.restore w.sock with readable := false } } (afterRecv i cw))
  | restoreStale {i : ℕ} {cw : Bool} {ver : BitVec 32} {hold : Hold}
      (stale : ver ≠ w.sock.readableVer) :
      Move w (.readFailed i cw ver hold none)
        (goto { w with sock := hold.restore w.sock } (afterRecv i cw))
  | failed {i : ℕ} {cw : Bool} {ver : BitVec 32} {hold : Hold} (errno : ℤ) :
      Move w (.readFailed i cw ver hold (some errno))
        (goto { w with sock := { w.sock with err := errno, socketError := true } }
          (.recvError i cw w.sock.errorCallback))
  | closing {pc pc' : DoPc} (hq : pc.quiet) (hq' : pc'.quiet) :
      Move w pc ⟨(close w).1, (close w).2, some pc'⟩
  | sendTake {i : ℕ} (can : w.sock.canWrite = true)
      (low : (!w.sock.writeable && w.sock.highWater) = false) :
      Move w (.sendInWorker i)
        (goto { w with sock := { w.sock with slistIdx := flip w.sock.slistIdx } }
          (.writev i w.sock.slistIdx w.sock.writeableVer))
  | writevAll {i n : ℕ} {j : Fin 2} {ver : BitVec 32}
      (le : n ≤ totalBytes (batch (w.sock.sendLists j)))
      (all : totalBytes (batch (w.sock.sendLists j)) ≤ n)
      (null : curNull (w.sock.sendLists j) = true) :
      Move w (.writev i j ver)
        (goto (({ w with sock := w.sock.setSendList j [] } : World).note
            (.written ((listBytes (batch (w.sock.sendLists j))).take n)))
          (.written i j ver (.ok n) (totalBytes (batch (w.sock.sendLists j))) true))
  | writevPart {i n : ℕ} {j : Fin 2} {ver : BitVec 32}
      (le : n ≤ totalBytes (batch (w.sock.sendLists j)))
      (some_ : 0 < n ∨ totalBytes (batch (w.sock.sendLists j)) = 0)
      (part : ¬ (totalBytes (batch (w.sock.sendLists j)) ≤ n ∧
        curNull (w.sock.sendLists j) = true)) :
      Move w (.writev i j ver)
        (goto (w.note (.written ((listBytes (batch (w.sock.sendLists j))).take n)))
          (.written i j ver (.ok n) (totalBytes (batch (w.sock.sendLists j)))
            (curNull (w.sock.sendLists j))))
  | writevAgain {i : ℕ} {j : Fin 2} {ver : BitVec 32} :
      Move w (.writev i j ver)
        (goto { w with kernel := { w.kernel with sndReady := false } }
          (.written i j ver .again (totalBytes (batch (w.sock.sendLists j)))
            (curNull (w.sock.sendLists j))))
  | writevError {i : ℕ} {j : Fin 2} {ver : BitVec 32} (errno : ℤ) :
      Move w (.writev i j ver)
        (goto (w.note .writeError)
          (.written i j ver (.error errno) (totalBytes (batch (w.sock.sendLists j)))
            (curNull (w.sock.sendLists j))))
  | writtenOk {i n total : ℕ} {j : Fin 2} {ver : BitVec 32} {null : Bool} (last : ℕ)
      {s' : TCPSocket}
      (put : putBackSend { w.sock with lastSendTime := last } j n total null = some s') :
      Move w (.written i j ver (.ok n) total null)
        (flushed { w with sock := { s' with bytes4Send := s'.bytes4Send - UInt64.ofNat n } } i
          w.sock.closedOnFlush)
  | writtenClear {i total : ℕ} {j : Fin 2} {ver : BitVec 32} {null : Bool}
      (same : w.sock.writeableVer = ver) :
      Move w (.written i j ver .again total null)
        (goto { w with sock := { w.sock.addFront j with writeable := false } } (.enable i))
  | writtenStale {i total : ℕ} {j : Fin 2} {ver : BitVec 32} {null : Bool}
      (stale : w.sock.writeableVer ≠ ver) :
      Move w (.written i j ver .again total null)
        (goto { w with sock := w.sock.addFront j } (.sendAction i .nothing))
  | writtenError {i total : ℕ} {j : Fin 2} {ver : BitVec 32} {null : Bool} {errno : ℤ}
      (opened : w.sock.closed = false) :
      Move w (.written i j ver (.error errno) total null)
        (goto { w with sock := { w.sock with socketError := true, err := errno } }
          (.sendAction i (.callErrorCallback w.sock.errorCallback)))
  | writtenClosed {i total : ℕ} {j : Fin 2} {ver : BitVec 32} {null : Bool} {errno : ℤ}
      (closed : w.sock.closed = true) :
      Move w (.written i j ver (.error errno) total null) (goto w (.sendAction i .nothing))
  | enable {i : ℕ} :
      Move w (.enable i) (goto { w with kernel := w.kernel.enable } (.lock (i + 1)))
  | doClose : Move w .doClose
      (goto { w with sock := (w.sock.setSendList 0 []).setSendList 1 [] }
        (.closeCallback w.sock.closeCallback))
  | closeCallback (cb : Callback) :
      Move w (.closeCallback (some cb)) ⟨w.note (.closeCallback cb), false, none⟩
  | noCallback : Move w (.closeCallback none) ⟨w, false, none⟩

theorem evaluate_move {w w' : World} {pc : DoPc} (hq : pc.quiet) (h : Retimed w w') (i : ℕ) :
    Move w pc (evaluate w' i) := by
  unfold evaluate
  dsimp only
  split
  · rename_i hn
    split
    · rename_i hc
      exact .leave hq h (h.closed ▸ hc)
    · rename_i hc
      simp only [hc, Bool.or_false, Bool.not_eq_true', Bool.or_eq_false_iff] at hn
      exact .idle hq h (h.closed ▸ by simpa using hc) (h.canRead ▸ hn.1) (h.canWrite ▸ hn.2)
  · exact .quiet hq rfl h

theorem checkTimeoutEnd_move {w w' : World} {pc : DoPc} (hq : pc.quiet) (h : Retimed w w')
    (i : ℕ) (t : TimerId) : Move w pc (checkTimeoutEnd w' i t) := by
  unfold checkTimeoutEnd
  split
  · refine evaluate_move hq (h.timeouts _ _ _ _ ?_) i
    exact fun _ => ⟨rfl, rfl⟩
  · exact evaluate_move hq h i

theorem checkTimeoutRecv_move {w w' : World} {pc : DoPc} (hq : pc.quiet) (h : Retimed w w')
    (i : ℕ) (t : TimerId) : Move w pc (checkTimeoutRecv w' i t) := by
  unfold checkTimeoutRecv
  split
  · rename_i hd _
    simp only [Bool.and_eq_true, Bool.not_eq_true'] at hd
    exact .quiet hq rfl ((h.timeouts _ _ _ _ fun hc => nomatch hc.symm.trans hd.1).note rfl)
  · exact checkTimeoutEnd_move hq h i t

theorem checkTimeout_move {w w' : World} {pc : DoPc} (hq : pc.quiet) (h : Retimed w w')
    (i : ℕ) (t : TimerId) : Move w pc (checkTimeout w' i t) := by
  unfold checkTimeout
  split
  · exact evaluate_move hq h i
  · split
    · rename_i hd _
      simp only [Bool.and_eq_true, Bool.not_eq_true'] at hd
      exact .quiet hq rfl ((h.timeouts _ _ _ _ fun hc => nomatch hc.symm.trans hd.1).note rfl)
    · exact checkTimeoutRecv_move hq h i t

theorem doLock_move {w : World} {pc : DoPc} (hq : pc.quiet) (i : ℕ) : Move w pc (doLock w i) := by
  unfold doLock
  split
  · exact evaluate_move hq (.refl w) i
  · refine checkTimeout_move hq ((Retimed.refl w).timeouts _ _ _ _ ?_) i _
    exact fun _ => ⟨rfl, rfl⟩

theorem afterRecv_quiet (i : ℕ) (cw : Bool) : (afterRecv i cw).quiet = true := by
  cases cw <;> rfl

theorem recvTake_move {b : Build} {w : World} {i : ℕ} {cw : Bool} {o : Outcome}
    (h : recvTake b w i cw = some o) : Move w (.recvInWorker i cw) o := by
  unfold recvTake at h
  dsimp only at h
  split_ifs at h with hr he hb
  · cases h; exact .quiet rfl (afterRecv_quiet i cw) (.refl w)
  · cases h; exact .quiet rfl rfl (.refl w)
  · cases h
    simp only [canRead] at hr
    exact .takeList (by grind) (by simpa using he)
  · split at h
    · cases h
    · rename_i hl
      cases h
      simp only [canRead] at hr
      exact .takeFront (by grind) (by simpa using he) hl

theorem readStep_move {w : World} {i : ℕ} {cw : Bool} {cb : Option Callback} {ver : BitVec 32}
    {hold : Hold} {io : Io} {o : Outcome} (h : readStep w i cw cb ver hold io = some o) :
    Move w (.read i cw cb ver hold) o := by
  cases io <;> simp only [readStep] at h
  case ok n =>
    split at h
    · rename_i hn
      cases h; exact .readOk hn.1 hn.2.1 hn.2.2
    · cases h
  case again =>
    split at h
    · cases h
    · rename_i hr
      cases h; exact .readAgain (by simpa using hr)
  case eof errno =>
    split at h
    · cases h; exact .readError errno
    · cases h
  case error errno => cases h; exact .readError errno

theorem deliverStep_move {w : World} {i : ℕ} {cw : Bool} {cb : Option Callback} {hold : Hold}
    {n : ℕ} {o : Outcome} (h : deliverStep w i cw cb hold n = some o) :
    Move w (.deliver i cw cb hold n) o := by
  unfold deliverStep at h
  split at h
  · cases h; exact .deliverFront
  · split at h
    · cases h; exact .quiet rfl rfl (.refl w)
    · split at h
      · cases h
      · rename_i hl
        dsimp only at h
        split at h
        · rename_i hc
          cases h
          refine .deliverList hl (.inr ⟨?_, rfl⟩)
          cases cb with
          | none => simp at hc
          | some cb => simpa [noteReceived, World.note, setRecvList] using hc
        · cases h; exact .deliverList hl (.inl rfl)

theorem recvErrorStep_move (w : World) (i : ℕ) (cw : Bool) (cb : Option Callback) :
    Move w (.recvError i cw cb) (recvErrorStep w i cw cb) := by
  cases cb with
  | some cb => exact .quiet rfl (afterRecv_quiet i cw) ((Retimed.refl w).note rfl)
  | none => exact .closing rfl (afterRecv_quiet i cw)

theorem sendTake_move (w : World) (i : ℕ) : Move w (.sendInWorker i) (sendTake w i) := by
  unfold sendTake
  dsimp only
  split_ifs with hc hh
  · exact .quiet rfl rfl (.refl w)
  · exact .quiet rfl rfl (.refl w)
  · exact .sendTake (by simpa using hc) (by simpa using hh)

theorem writevStep_move {w : World} {i : ℕ} {j : Fin 2} {ver : BitVec 32} {io : Io} {o : Outcome}
    (h : writevStep w i j ver io = some o) : Move w (.writev i j ver) o := by
  cases io <;> simp only [writevStep] at h
  case ok n =>
    split at h
    · rename_i hn
      split at h
      · rename_i hall
        cases h
        rw [hall.2]
        exact .writevAll hn.1 hall.1 hall.2
      · rename_i hpart
        cases h; exact .writevPart hn.1 hn.2 hpart
    · cases h
  case again => cases h; exact .writevAgain
  case eof => cases h
  case error errno => cases h; exact .writevError errno

theorem writtenStep_move {w : World} {i total : ℕ} {j : Fin 2} {ver : BitVec 32} {null : Bool}
    {io : Io} {o : Outcome} (h : writtenStep w i j ver total null io = some o) :
    Move w (.written i j ver io total null) o := by
  cases io <;> simp only [writtenStep] at h
  case ok n =>
    unfold writtenOk at h
    simp only [Option.map_eq_some_iff] at h
    obtain ⟨s', hput, rfl⟩ := h
    split at hput
    · exact .writtenOk _ hput
    · exact .writtenOk w.sock.lastSendTime hput
  case again =>
    cases h
    unfold writtenAgain
    dsimp only
    split
    · rename_i hv; exact .writtenClear hv
    · rename_i hv; exact .writtenStale hv
  case eof => cases h
  case error errno =>
    cases h
    unfold writtenError
    split
    · rename_i hc; exact .writtenClosed hc
    · rename_i hc; exact .writtenError (by simpa using hc)

theorem sendActionStep_move (w : World) (i : ℕ) (act : SendAction) :
    Move w (.sendAction i act) (sendActionStep w i act) := by
  cases act with
  | nothing => exact .quiet rfl rfl (.refl w)
  | callHighwaterCallback cb bytes =>
    cases cb with
    | none => exact .quiet rfl rfl (.refl w)
    | some cb => exact .quiet rfl rfl ((Retimed.refl w).note rfl)
  | callFlushCallback cb last =>
    exact .quiet rfl (by cases last <;> rfl) ((Retimed.refl w).note rfl)
  | callErrorCallback cb =>
    cases cb with
    | none => exact .quiet rfl rfl (.refl w)
    | some cb => exact .quiet rfl rfl ((Retimed.refl w).note rfl)

theorem doBody_move (w : World) (i : ℕ) (cr cw : Bool) :
    Move w (.body i cr cw) (doBody w i cr cw) := by
  unfold doBody
  split_ifs <;> exact .quiet rfl rfl (.refl w)

theorem recvFinishStep_move (w : World) (i : ℕ) (cw : Bool) (hold : Hold) :
    Move w (.recvFinish i cw hold) (recvFinishStep w i cw hold) := by
  unfold recvFinishStep
  split
  · exact .recvFinish _
  · exact .recvFinish w.sock.lastRecvTime

theorem readFailedStep_move (w : World) (i : ℕ) (cw : Bool) (ver : BitVec 32) (hold : Hold)
    (err : Option ℤ) :
    Move w (.readFailed i cw ver hold err) (readFailedStep w i cw ver hold err) := by
  cases err with
  | some errno => exact .failed errno
  | none =>
    have hv : (hold.restore w.sock).readableVer = w.sock.readableVer := by cases hold <;> rfl
    unfold readFailedStep
    dsimp only
    split
    · rename_i same; exact .restoreClear (same.trans hv)
    · rename_i stale; exact .restoreStale (hv ▸ stale)

/-- The inversion of a worker step. -/
theorem doStep_move {b : Build} {w : World} {io : Io} {pc : DoPc} {o : Outcome}
    (h : doStep b w io pc = some o) : Move w pc o := by
  cases pc <;> simp only [doStep, Option.some.injEq] at h
  case queued => subst h; exact .quiet rfl rfl (.refl w)
  case lock i => subst h; exact doLock_move rfl i
  case sendTimeout i t => subst h; exact checkTimeoutRecv_move rfl (.refl w) i t
  case recvTimeout i t => subst h; exact checkTimeoutEnd_move rfl (.refl w) i t
  case body i cr cw => subst h; exact doBody_move w i cr cw
  case recvInWorker i cw => exact recvTake_move h
  case read => exact readStep_move h
  case deliver => exact deliverStep_move h
  case recvFinish => subst h; exact recvFinishStep_move w _ _ _
  case readFailed => subst h; exact readFailedStep_move w _ _ _ _ _
  case recvError => subst h; exact recvErrorStep_move w _ _ _
  case sendInWorker i => subst h; exact sendTake_move w i
  case writev => exact writevStep_move h
  case written => exact writtenStep_move h
  case enable => subst h; exact .enable
  case sendAction => subst h; exact sendActionStep_move w _ _
  case closing => subst h; exact .closing rfl rfl
  case doClose => subst h; exact .doClose
  case closeCallback cb =>
    cases cb with
    | none => cases h; exact .noCallback
    | some cb => cases h; exact .closeCallback cb

/-! ## Steps of the system -/

inductive Stepped (s : Sys) : Label → Sys → Prop where
  | apiCall {a : Label} {r : World × Bool} (h : Section s.world r) : Stepped s a (s.unlock r)
  | collect (event : Event) (idle : s.poller = .idle) :
      Stepped s (.collect event)
        { s with
          world := { s.world with
            kernel := { s.world.kernel with
              queuedRead := s.world.kernel.queuedRead && !event.read
              queuedWrite := s.world.kernel.queuedWrite && !event.write } }
          poller := .entered event }
  | disable {event : Event} (entered : s.poller = .entered event) :
      Stepped s .disable
        { s with
          world := { s.world with
            kernel := if event.write then s.world.kernel.disable else s.world.kernel }
          poller := .locking event }
  | onActive {event : Event} (err : ℤ) (locking : s.poller = .locking event) :
      Stepped s (.onActive err)
        { s.unlock (TCPSocket.onActive s.world event err) with poller := .idle }
  | post (pos : 0 < s.posting) :
      Stepped s .post { s with posting := s.posting - 1, tasks := s.tasks ++ [.queued] }
  | worker {k : ℕ} {io : Io} {pc : DoPc} {o : Outcome} (at_ : s.tasks[k]? = some pc)
      (move : Move s.world pc o) : Stepped s (.worker k io) (s.resume k o)

theorem step_stepped {b : Build} {s s' : Sys} {a : Label} (h : step b s a = some s') :
    Stepped s a s' := by
  cases a <;> simp only [step, Option.some.injEq] at h
  case start => subst h; exact .apiCall (start_section _)
  case send => subst h; exact .apiCall (sendWith_section _ _ _ _)
  case sendAndClose => subst h; exact .apiCall (sendWith_section _ _ _ _)
  case recv => subst h; exact .apiCall (recv_section _ _)
  case shutdown => subst h; exact .apiCall (shutdownCall_section _)
  case close => subst h; exact .apiCall (close_section _)
  case setHighWater cb size =>
    subst h
    exact .apiCall (.set { s.world.sock.toSettings with
      highWaterSize := size, highWaterCallback := cb })
  case setFlushCallback cb =>
    subst h; exact .apiCall (.set { s.world.sock.toSettings with flushCallback := cb })
  case setErrorCallback cb =>
    subst h; exact .apiCall (.set { s.world.sock.toSettings with errorCallback := cb })
  case setCloseCallback cb =>
    subst h; exact .apiCall (.set { s.world.sock.toSettings with closeCallback := cb })
  case setRecvCallback cb =>
    subst h; exact .apiCall (.set { s.world.sock.toSettings with recvCallback := cb })
  case setSendTimeoutCallback =>
    subst h; exact .apiCall (.retimed (setSendTimeoutCallback_retimed _ _ _))
  case setRecvTimeoutCallback =>
    subst h; exact .apiCall (.retimed (setRecvTimeoutCallback_retimed _ _ _))
  case onTimer t =>
    split at h
    · cases h; exact .apiCall (onTimer_section _ t)
    · cases h
  case tick d =>
    subst h
    exact .apiCall (.retimed ((Retimed.refl s.world).timeouts _ _ _ _ fun _ => ⟨rfl, rfl⟩))
  case arrive bytes eof => subst h; exact .apiCall (.arrive bytes eof)
  case writable => subst h; exact .apiCall .writable
  case collect event =>
    unfold collectStep at h
    split at h
    · rename_i idle; cases h; exact .collect event idle
    · cases h
  case disable =>
    unfold disableStep at h
    split at h
    · rename_i entered; cases h; exact .disable entered
    · cases h
  case onActive err =>
    unfold onActiveStep at h
    split at h
    · rename_i locking; cases h; exact .onActive err locking
    · cases h
  case post =>
    unfold postStep at h
    split at h
    · rename_i pos; cases h; exact .post pos
    · cases h
  case worker k io =>
    unfold workerStep at h
    simp only [Option.map_eq_some_iff, Option.bind_eq_some_iff] at h
    obtain ⟨o, ⟨pc, hpc, ho⟩, rfl⟩ := h
    exact .worker hpc (doStep_move ho)

end Hwnet.TCPSocket
