import Hwnet.TCPSocketPasses
import Hwnet.TCPSocketStream

set_option autoImplicit false

/-!
# The receive side

A section posts a buffer or leaves the receive side alone, and a worker step is one of the
`Received`: from taking a buffer or a list to putting back what a read did not fill.
-/
namespace Hwnet.TCPSocket

/-! ## The receive side of a log -/

def postedBuffers (log : List Obs) : List RecvBuffer :=
  log.flatMap fun
    | .posted buff => [buff]
    | _ => []

def readBytes (log : List Obs) : List UInt8 :=
  log.flatMap fun
    | .read bytes => bytes
    | _ => []

/-- Each buffer handed to the receive callback, with the characters the callback finds in it. -/
def deliveries (log : List Obs) : List (RecvBuffer × List UInt8) :=
  log.flatMap fun
    | .received buff bytes => [(buff, bytes)]
    | _ => []

def deliveredBuffers (log : List Obs) : List RecvBuffer := (deliveries log).map Prod.fst

def deliveredBytes (log : List Obs) : List UInt8 := (deliveries log).flatMap Prod.snd

structure Incoming where
  recvLists : Fin 2 → List RecvBuffer
  rlistIdx : Fin 2
  posted : List RecvBuffer
  delivered : List (RecvBuffer × List UInt8)
  read : List UInt8
  memory : Scattered.Mem UInt8

def World.incoming (w : World) : Incoming where
  recvLists := w.sock.recvLists
  rlistIdx := w.sock.rlistIdx
  posted := postedBuffers w.log
  delivered := deliveries w.log
  read := readBytes w.log
  memory := w.memory

def Obs.outbound : Obs → Bool
  | .posted _ | .read _ | .received _ _ => false
  | _ => true

theorem incoming_outbound {w w' : World} {l : List Obs}
    (lists : w'.sock.recvLists = w.sock.recvLists) (idx : w'.sock.rlistIdx = w.sock.rlistIdx)
    (log : w'.log = w.log ++ l) (outbound : ∀ o ∈ l, o.outbound = true)
    (memory : w'.memory = w.memory) : w'.incoming = w.incoming := by
  have hposted : postedBuffers l = [] := List.flatMap_eq_nil_iff.mpr fun o ho => by
    have := outbound o ho
    cases o <;> first | rfl | cases this
  have hread : readBytes l = [] := List.flatMap_eq_nil_iff.mpr fun o ho => by
    have := outbound o ho
    cases o <;> first | rfl | cases this
  have hdelivered : deliveries l = [] := List.flatMap_eq_nil_iff.mpr fun o ho => by
    have := outbound o ho
    cases o <;> first | rfl | cases this
  have hp : postedBuffers (w.log ++ l) = postedBuffers w.log ++ postedBuffers l :=
    List.flatMap_append
  have hr : readBytes (w.log ++ l) = readBytes w.log ++ readBytes l := List.flatMap_append
  have hd : deliveries (w.log ++ l) = deliveries w.log ++ deliveries l := List.flatMap_append
  unfold World.incoming
  rw [lists, idx, log, hp, hr, hd, hposted, hread, hdelivered, memory]
  simp only [List.append_nil]

theorem note_incoming (w : World) {o : Obs} (h : o.outbound = true) :
    (w.note o).incoming = w.incoming :=
  incoming_outbound rfl rfl rfl (fun x hx => by rw [List.mem_singleton.mp hx]; exact h) rfl

theorem Retimed.incoming {w w' : World} (h : Retimed w w') : w'.incoming = w.incoming := by
  obtain ⟨t, hs⟩ := h.sock
  obtain ⟨l, hl, hcall⟩ := h.log
  refine incoming_outbound (by rw [hs]) (by rw [hs]) hl (fun o ho => ?_) h.memory
  have := hcall o ho
  cases o <;> first | rfl | cases this

theorem wake_incoming (w : World) (work : Bool) : (wake w work).1.incoming = w.incoming := by
  rw [wake_eq]
  rfl

def Incoming.post (i : Incoming) (buff : RecvBuffer) : Incoming :=
  { i with
    recvLists := Function.update i.recvLists i.rlistIdx (i.recvLists i.rlistIdx ++ [buff])
    posted := i.posted ++ [buff] }

theorem queueRecv_incoming (w : World) (buff : RecvBuffer) :
    (queueRecv w buff).incoming = w.incoming.post buff := by
  have hp : postedBuffers (w.log ++ [.posted buff]) = postedBuffers w.log ++ [buff] :=
    List.flatMap_append
  have hr : readBytes (w.log ++ [.posted buff]) = readBytes w.log ++ [] := List.flatMap_append
  have hd : deliveries (w.log ++ [.posted buff]) = deliveries w.log ++ [] := List.flatMap_append
  rw [List.append_nil] at hr hd
  simp only [queueRecv, World.note, World.incoming, hp, hr, hd]
  rfl

/-- A section posts a buffer or leaves the receive side alone. -/
theorem section_incoming {w : World} {r : World × Bool} (h : Section w r) :
    r.1.incoming = w.incoming ∨ ∃ buff, 0 < buff.len ∧ r.1.incoming = w.incoming.post buff := by
  cases h with
  | retimed h => exact .inl h.incoming
  | timer h => exact .inl ((wake_incoming _ _).trans h.incoming)
  | set | started | arrive | writable => exact .inl rfl
  | sent buff len last pos ho hs hm h =>
    refine .inl ((wake_incoming _ _).trans (h.incoming.trans ?_))
    exact note_incoming _ rfl
  | posted buff pos ho h =>
    refine .inr ⟨buff, pos, (wake_incoming _ _).trans (h.incoming.trans ?_)⟩
    exact queueRecv_incoming w buff
  | shutdown =>
    left
    unfold markShutdown
    dsimp only
    split
    · exact note_incoming _ rfl
    · rfl
  | closed ho h =>
    refine .inl (Eq.trans ?_ h.incoming)
    exact note_incoming _ rfl

theorem onActive_incoming (w : World) (event : Event) (err : ℤ) :
    (onActive w event err).1.incoming = w.incoming := by
  unfold onActive setReady
  rw [wake_eq]
  cases event.read <;> cases event.write <;> cases event.error <;> rfl

/-! ## What the worker does -/

/-- The buffers a read was given, by the lists. -/
def Hold.among (lists : Fin 2 → List RecvBuffer) : Hold → List RecvBuffer
  | .front buff => [buff]
  | .list j => lists j

theorem Hold.buffers_eq (s : TCPSocket) (hold : Hold) :
    hold.buffers s = hold.among s.recvLists := by
  cases hold <;> rfl

def DoPc.receives : DoPc → Bool
  | .read .. | .deliver .. | .recvFinish .. | .readFailed .. => true
  | _ => false

theorem afterRecv_not_receives (i : ℕ) (cw : Bool) : (afterRecv i cw).receives = false := by
  cases cw <;> rfl

def Incoming.setRecvList (i : Incoming) (j : Fin 2) (l : List RecvBuffer) : Incoming :=
  { i with recvLists := Function.update i.recvLists j l }

def Incoming.deliver (i : Incoming) (cb : Option Callback) (buff : RecvBuffer) (n : ℕ) : Incoming :=
  match cb with
  | some _ => { i with delivered := i.delivered ++ [(buff, Scattered.load i.memory buff n)] }
  | none => i

def Incoming.putBack (i : Incoming) (j : Fin 2) : Incoming :=
  (i.setRecvList i.rlistIdx (i.recvLists j ++ i.recvLists i.rlistIdx)).setRecvList j []

theorem putBack_recvLists (i : Incoming) :
    (i.putBack (flip i.rlistIdx)).recvLists i.rlistIdx =
        i.recvLists (flip i.rlistIdx) ++ i.recvLists i.rlistIdx ∧
      (i.putBack (flip i.rlistIdx)).recvLists (flip i.rlistIdx) = [] := by
  refine ⟨?_, Function.update_self _ _ _⟩
  exact (Function.update_of_ne (flip_ne _).symm _ _).trans (Function.update_self _ _ _)

def Hold.restored (i : Incoming) : Hold → Incoming
  | .front buff => i.setRecvList i.rlistIdx (buff :: i.recvLists i.rlistIdx)
  | .list j => i.putBack j

def Hold.finished (i : Incoming) : Hold → Incoming
  | .front _ => i
  | .list j => i.putBack j

inductive Received (w : World) : DoPc → Incoming → Option DoPc → Prop where
  | apart {pc : DoPc} {next : Option DoPc} (h : pc.receives = false)
      (h' : ∀ q ∈ next, q.receives = false) : Received w pc w.incoming next
  | takeFront {n : ℕ} {cw : Bool} {ver : BitVec 32} {front : RecvBuffer}
      {rest : List RecvBuffer}
      (fine : w.sock.socketError = false) (list : w.sock.recvList = front :: rest) :
      Received w (.recvInWorker n cw) (w.incoming.setRecvList w.sock.rlistIdx rest)
        (some (.read n cw w.sock.recvCallback ver (.front front)))
  | takeList {n : ℕ} {cw : Bool} {ver : BitVec 32} (fine : w.sock.socketError = false)
      (some_ : w.sock.recvList ≠ []) :
      Received w (.recvInWorker n cw) { w.incoming with rlistIdx := flip w.sock.rlistIdx }
        (some (.read n cw w.sock.recvCallback ver (.list w.sock.rlistIdx)))
  | read {n : ℕ} {cw : Bool} {cb : Option Callback} {ver : BitVec 32} {hold : Hold}
      {bytes : List UInt8} (pos : 0 < bytes.length)
      (fits : bytes.length ≤ Scattered.capacity (hold.among w.sock.recvLists)) :
      Received w (.read n cw cb ver hold)
        { w.incoming with
          read := w.incoming.read ++ bytes
          memory := Scattered.scatter w.memory (hold.among w.sock.recvLists) bytes }
        (some (.deliver n cw cb hold bytes.length))
  | readFails {n : ℕ} {cw : Bool} {cb : Option Callback} {ver : BitVec 32} {hold : Hold}
      (err : Option ℤ) :
      Received w (.read n cw cb ver hold) w.incoming (some (.readFailed n cw ver hold err))
  | deliverFront {n m : ℕ} {cw : Bool} {cb : Option Callback} {buff : RecvBuffer} :
      Received w (.deliver n cw cb (.front buff) m) (w.incoming.deliver cb buff m)
        (some (.recvFinish n cw (.front buff)))
  | deliverList {n m : ℕ} {cw : Bool} {cb : Option Callback} {j : Fin 2} {front : RecvBuffer}
      {rest : List RecvBuffer} (more : m ≠ 0) (list : w.sock.recvLists j = front :: rest) :
      Received w (.deliver n cw cb (.list j) m)
        ((w.incoming.setRecvList j rest).deliver cb front (min m front.len))
        (some (.deliver n cw cb (.list j) (m - front.len)))
  | deliverClosed {n m : ℕ} {cw : Bool} {cb : Option Callback} {j : Fin 2} {front : RecvBuffer}
      {rest : List RecvBuffer} (closed : w.sock.closed = true) :
      Received w (.deliver n cw cb (.list j) m)
        ((w.incoming.setRecvList j rest).deliver cb front (min m front.len))
        (some (afterRecv n cw))
  | deliverEnd {n : ℕ} {cw : Bool} {cb : Option Callback} {j : Fin 2} :
      Received w (.deliver n cw cb (.list j) 0) w.incoming (some (.recvFinish n cw (.list j)))
  | finish {n : ℕ} {cw : Bool} {hold : Hold} :
      Received w (.recvFinish n cw hold) (hold.finished w.incoming) (some (afterRecv n cw))
  | restore {n : ℕ} {cw : Bool} {ver : BitVec 32} {hold : Hold} :
      Received w (.readFailed n cw ver hold none) (hold.restored w.incoming)
        (some (afterRecv n cw))
  | failed {n : ℕ} {cw : Bool} {ver : BitVec 32} {hold : Hold} {errno : ℤ}
      {cb : Option Callback} :
      Received w (.readFailed n cw ver hold (some errno)) w.incoming (some (.recvError n cw cb))

structure Apart (w : World) (o : Outcome) : Prop where
  world : o.world.incoming = w.incoming
  next : ∀ q ∈ o.next, q.receives = false

theorem Apart.received {w : World} {pc : DoPc} {o : Outcome} (h : Apart w o)
    (hpc : pc.receives = false) : Received w pc o.world.incoming o.next := by
  rw [h.world]
  exact .apart hpc h.next

theorem apart_goto {w w' : World} {pc : DoPc} (world : w'.incoming = w.incoming)
    (hpc : pc.receives = false) : Apart w (goto w' pc) :=
  ⟨world, fun q hq => by cases hq; exact hpc⟩

theorem evaluate_apart {w w' : World} (world : w'.incoming = w.incoming) (i : ℕ) :
    Apart w (evaluate w' i) := by
  have h := evaluate_evaluated w' i
  generalize evaluate w' i = o at h
  cases h with
  | close => exact apart_goto world rfl
  | idle => exact ⟨world, fun q hq => by cases hq⟩
  | work => exact apart_goto world rfl

theorem locked_apart {w : World} {i : ℕ} {ts : List TimerId} {o : Outcome}
    (h : Locked w i ts o) : Apart w o := by
  cases h with
  | claimSend => exact apart_goto (note_incoming _ rfl) rfl
  | claimRecv => exact apart_goto (note_incoming _ rfl) rfl
  | @release t => exact evaluate_apart (by rfl) i
  | keep => exact evaluate_apart rfl i

theorem sendTake_apart (w : World) (i : ℕ) : Apart w (sendTake w i) := by
  unfold sendTake
  dsimp only
  split_ifs
  all_goals exact apart_goto rfl rfl

theorem writevStep_apart {w : World} {i : ℕ} {j : Fin 2} {ver : BitVec 32} {io : Io} {o : Outcome}
    (h : writevStep w i j ver io = some o) : Apart w o := by
  cases io <;> simp only [writevStep] at h
  case ok n =>
    split_ifs at h
    · cases h
      exact apart_goto (note_incoming _ rfl) rfl
    · cases h
      exact apart_goto (note_incoming _ rfl) rfl
  case again => cases h; exact apart_goto rfl rfl
  case eof => cases h
  case error => cases h; exact apart_goto (note_incoming _ rfl) rfl

theorem flushed_apart (w : World) (i : ℕ) (last : Bool) : Apart w (flushed w i last) := by
  obtain ⟨l, act, hf, hl⟩ := flushed_eq w i last
  rw [hf]
  exact apart_goto (incoming_outbound rfl rfl rfl (fun o ho => by rw [hl o ho]; rfl) rfl) rfl

theorem writtenStep_apart {w : World} {i total : ℕ} {j : Fin 2} {ver : BitVec 32} {null : Bool}
    {io : Io} {o : Outcome} (h : writtenStep w i j ver total null io = some o) : Apart w o := by
  cases io <;> simp only [writtenStep] at h
  case ok n =>
    unfold writtenOk at h
    simp only [Option.map_eq_some_iff] at h
    obtain ⟨s', hput, rfl⟩ := h
    obtain ⟨lists, rfl⟩ := putBackSend_frame hput
    obtain ⟨hworld, hnext⟩ := flushed_apart _ i w.sock.closedOnFlush
    refine ⟨hworld.trans ?_, hnext⟩
    split <;> rfl
  case again =>
    cases h
    unfold writtenAgain
    dsimp only
    split <;> exact apart_goto rfl rfl
  case eof => cases h
  case error =>
    cases h
    unfold writtenError
    split <;> exact apart_goto rfl rfl

theorem sendActionStep_apart (w : World) (i : ℕ) (act : SendAction) :
    Apart w (sendActionStep w i act) := by
  cases act with
  | nothing => exact apart_goto rfl rfl
  | callHighwaterCallback cb bytes =>
    cases cb with
    | none => exact apart_goto rfl rfl
    | some cb => exact apart_goto (note_incoming _ rfl) rfl
  | callFlushCallback cb last =>
    exact apart_goto (note_incoming _ rfl) (by cases last <;> rfl)
  | callErrorCallback cb =>
    cases cb with
    | none => exact apart_goto rfl rfl
    | some cb => exact apart_goto (note_incoming _ rfl) rfl

theorem doBody_apart (w : World) (i : ℕ) (cr cw : Bool) : Apart w (doBody w i cr cw) := by
  unfold doBody
  split_ifs <;> exact apart_goto rfl rfl

theorem noteReceived_incoming (w : World) (cb : Option Callback) (buff : RecvBuffer) (n : ℕ) :
    (noteReceived w cb buff n).incoming = w.incoming.deliver cb buff n := by
  cases cb with
  | none => rfl
  | some cb =>
    have hp (bytes : List UInt8) : postedBuffers (w.log ++ [.received buff bytes]) =
        postedBuffers w.log ++ [] := List.flatMap_append
    have hr (bytes : List UInt8) : readBytes (w.log ++ [.received buff bytes]) =
        readBytes w.log ++ [] := List.flatMap_append
    have hd (bytes : List UInt8) : deliveries (w.log ++ [.received buff bytes]) =
        deliveries w.log ++ [(buff, bytes)] := List.flatMap_append
    simp only [List.append_nil] at hp hr
    simp only [noteReceived, World.note, World.incoming, hp, hr, hd]
    rfl

theorem read_incoming (w : World) (bytes : List UInt8) :
    (w.note (.read bytes)).incoming = { w.incoming with read := w.incoming.read ++ bytes } := by
  have hp : postedBuffers (w.log ++ [.read bytes]) = postedBuffers w.log ++ [] :=
    List.flatMap_append
  have hr : readBytes (w.log ++ [.read bytes]) = readBytes w.log ++ bytes := by
    rw [readBytes, List.flatMap_append]
    exact congrArg _ (List.flatMap_singleton _ _)
  have hd : deliveries (w.log ++ [.read bytes]) = deliveries w.log ++ [] := List.flatMap_append
  rw [List.append_nil] at hp hd
  simp only [World.note, World.incoming, hp, hr, hd]

theorem recvTake_received {b : Build} {w : World} {i : ℕ} {cw : Bool} {o : Outcome}
    (h : recvTake b w i cw = some o) :
    Received w (.recvInWorker i cw) o.world.incoming o.next := by
  unfold recvTake at h
  dsimp only at h
  split_ifs at h with hr he hb
  · cases h
    exact (apart_goto rfl (afterRecv_not_receives i cw)).received rfl
  · cases h
    exact (apart_goto rfl rfl).received rfl
  · cases h
    refine .takeList (by simpa using he) fun hnil => ?_
    simp [canRead, hnil, he] at hr
  · split at h
    · cases h
    · rename_i hlist
      cases h
      exact .takeFront (by simpa using he) hlist

theorem readStep_received {w : World} {i : ℕ} {cw : Bool} {cb : Option Callback} {ver : BitVec 32}
    {hold : Hold} {io : Io} {o : Outcome} (h : readStep w i cw cb ver hold io = some o) :
    Received w (.read i cw cb ver hold) o.world.incoming o.next := by
  cases io <;> simp only [readStep] at h
  case ok n =>
    split at h
    · rename_i hn
      cases h
      rw [goto, read_incoming]
      rw [hold.buffers_eq] at hn ⊢
      have hlen : (w.kernel.inbox.take n).length = n := List.length_take_of_le hn.2.2
      refine (congrArg (Received w _ _ <| some <| .deliver i cw cb hold ·) hlen).mp ?_
      exact .read (by omega) (by omega)
    · cases h
  case again =>
    split at h
    · cases h
    · cases h; exact .readFails none
  case eof errno =>
    split at h
    · cases h; exact .readFails (some errno)
    · cases h
  case error errno => cases h; exact .readFails (some errno)

theorem deliverStep_received {w : World} {i : ℕ} {cw : Bool} {cb : Option Callback} {hold : Hold}
    {n : ℕ} {o : Outcome} (h : deliverStep w i cw cb hold n = some o) :
    Received w (.deliver i cw cb hold n) o.world.incoming o.next := by
  unfold deliverStep at h
  split at h
  · cases h
    rw [goto, noteReceived_incoming]
    exact .deliverFront
  · split at h
    · rename_i hnil
      cases h
      rw [hnil]
      exact .deliverEnd
    · rename_i hmore
      split at h
      · cases h
      · rename_i front rest hlist
        dsimp only at h
        split at h
        · rename_i hclosed
          cases h
          rw [goto, noteReceived_incoming]
          simp only [noteReceived_sock, Bool.and_eq_true] at hclosed
          exact .deliverClosed hclosed.2
        · cases h
          rw [goto, noteReceived_incoming]
          exact .deliverList hmore hlist

theorem Hold.finished_incoming (w : World) (hold : Hold) (last : ℕ) :
    ({ w with sock := hold.finish { w.sock with lastRecvTime := last } } : World).incoming =
      hold.finished w.incoming := by
  cases hold <;> rfl

theorem recvFinishStep_received (w : World) (i : ℕ) (cw : Bool) (hold : Hold) :
    Received w (.recvFinish i cw hold) (recvFinishStep w i cw hold).world.incoming
      (recvFinishStep w i cw hold).next := by
  unfold recvFinishStep
  dsimp only
  split
  · rw [goto, Hold.finished_incoming]
    exact .finish
  · rw [goto, Hold.finished_incoming w hold w.sock.lastRecvTime]
    exact .finish

theorem readFailedStep_received (w : World) (i : ℕ) (cw : Bool) (ver : BitVec 32) (hold : Hold)
    (err : Option ℤ) :
    Received w (.readFailed i cw ver hold err)
      (readFailedStep w i cw ver hold err).world.incoming
      (readFailedStep w i cw ver hold err).next := by
  cases err with
  | some errno => exact .failed
  | none =>
    unfold readFailedStep
    dsimp only
    split
    · cases hold <;> exact .restore
    · cases hold <;> exact .restore

theorem close_incoming (w : World) : (close w).1.incoming = w.incoming := by
  unfold close
  split
  · rfl
  · exact (note_incoming _ rfl).trans (cancelTimer_retimed (Retimed.refl w)).incoming

theorem doStep_received {b : Build} {w : World} {io : Io} {pc : DoPc} {o : Outcome}
    (h : doStep b w io pc = some o) : Received w pc o.world.incoming o.next := by
  cases pass : pc.passes with
  | some i =>
    have hlocked := locked_apart (doStep_locked h pass)
    have hworld : (pc.entered w).incoming = w.incoming := by cases pc <;> rfl
    refine Apart.received ⟨hlocked.world.trans hworld, hlocked.next⟩ ?_
    cases pc <;> first | rfl | cases pass
  | none =>
    cases pc with
    | queued => cases h; exact (apart_goto rfl rfl).received rfl
    | lock | sendTimeout | recvTimeout => cases pass
    | body => cases h; exact (doBody_apart _ _ _ _).received rfl
    | recvInWorker => exact recvTake_received h
    | read => exact readStep_received h
    | deliver => exact deliverStep_received h
    | recvFinish => cases h; exact recvFinishStep_received _ _ _ _
    | readFailed => cases h; exact readFailedStep_received _ _ _ _ _ _
    | recvError i cw cb =>
      have hafter := afterRecv_not_receives i cw
      cases h
      cases cb with
      | some cb => exact (apart_goto (note_incoming _ rfl) hafter).received rfl
      | none =>
        exact (⟨close_incoming w, fun q hq => by cases hq; exact hafter⟩ : Apart w _).received rfl
    | sendInWorker => cases h; exact (sendTake_apart _ _).received rfl
    | writev => exact (writevStep_apart h).received rfl
    | written => exact (writtenStep_apart h).received rfl
    | enable => cases h; exact (apart_goto rfl rfl).received rfl
    | sendAction => cases h; exact (sendActionStep_apart _ _ _).received rfl
    | closing =>
      cases h
      exact (⟨close_incoming w, fun q hq => by cases hq; rfl⟩ : Apart w _).received rfl
    | doClose => cases h; exact (apart_goto rfl rfl).received rfl
    | closeCallback cb =>
      cases cb with
      | none => cases h; exact .apart rfl fun q hq => by cases hq
      | some cb =>
        cases h
        exact (⟨note_incoming _ rfl, fun q hq => by cases hq⟩ : Apart w _).received rfl

end Hwnet.TCPSocket
