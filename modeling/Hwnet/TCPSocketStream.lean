import Hwnet.TCPSocketOneWorker

set_option autoImplicit false

/-!
# The send stream

Whatever partial writes occur, the bytes writev took, the bytes the worker still holds and the
bytes queued are together the bytes accepted, in order.
-/
namespace Hwnet.TCPSocket

/-! ## The bytes of a list of contexts -/

theorem SendContext.length_bytes (c : SendContext) : c.bytes.length = c.len := by
  simp [SendContext.bytes]

theorem listBytes_cons (c : SendContext) (l : List SendContext) :
    listBytes (c :: l) = c.bytes ++ listBytes l := rfl

theorem listBytes_append (l l' : List SendContext) :
    listBytes (l ++ l') = listBytes l ++ listBytes l' :=
  List.flatMap_append

theorem totalBytes_cons (c : SendContext) (l : List SendContext) :
    totalBytes (c :: l) = c.len + totalBytes l := by
  simp [totalBytes]

theorem length_listBytes (l : List SendContext) : (listBytes l).length = totalBytes l := by
  induction l with
  | nil => rfl
  | cons c l ih => rw [listBytes_cons, List.length_append, c.length_bytes, ih, totalBytes_cons]

theorem totalBytes_append (l l' : List SendContext) :
    totalBytes (l ++ l') = totalBytes l + totalBytes l' := by
  rw [totalBytes, List.map_append, List.sum_append]
  rfl

theorem SendContext.bytes_skip (c : SendContext) (nn : ℕ) :
    ({ c with ptr := c.ptr + nn, len := c.len - nn } : SendContext).bytes = c.bytes.drop nn := by
  simp only [SendContext.bytes, ← List.map_drop, List.drop_range', Nat.mul_one]

theorem trim_bytes {nn : ℕ} {l l' : List SendContext} (h : trim nn l = some l') :
    listBytes l' = (listBytes l).drop nn := by
  induction l generalizing nn with
  | nil => cases h
  | cons front rest ih =>
    have hlen := front.length_bytes
    simp only [trim] at h
    split at h
    · rename_i hle
      have hnil : front.bytes.drop nn = [] := List.drop_eq_nil_of_le (by omega)
      rw [ih h, listBytes_cons, List.drop_append, hnil, hlen, List.nil_append]
    · cases h
      rw [listBytes_cons, listBytes_cons, SendContext.bytes_skip,
        List.drop_append_of_le_length (by omega)]

theorem trim_positive {nn : ℕ} {l l' : List SendContext} (h : trim nn l = some l')
    (pos : ∀ c ∈ l, 0 < c.len) : ∀ c ∈ l', 0 < c.len := by
  induction l generalizing nn with
  | nil => cases h
  | cons front rest ih =>
    simp only [trim] at h
    split at h
    · exact ih h fun c hc => pos c (List.mem_cons_of_mem _ hc)
    · rename_i hlt
      cases h
      intro c hc
      rcases List.mem_cons.mp hc with rfl | hc
      · simp only; omega
      · exact pos c (List.mem_cons_of_mem _ hc)

/-- A write of `n` bytes of the batch takes the first `n` bytes of the list. -/
theorem take_batch (l : List SendContext) {n : ℕ} (le : n ≤ totalBytes (batch l)) :
    (listBytes (batch l)).take n = (listBytes l).take n := by
  have hsplit : listBytes l = listBytes (batch l) ++ listBytes (l.drop maxSendIovecSize) := by
    rw [← listBytes_append, batch, List.take_append_drop]
  rw [hsplit, List.take_append_of_le_length (by rw [length_listBytes]; exact le)]

theorem batch_eq_of_curNull {l : List SendContext} (h : curNull l = true) : batch l = l :=
  List.take_of_length_le (by simpa [curNull] using h)

theorem batch_nonempty {l : List SendContext} (pos : ∀ c ∈ l, 0 < c.len)
    (h : totalBytes (batch l) = 0) : l = [] := by
  cases l with
  | nil => rfl
  | cons c l =>
    have := pos c List.mem_cons_self
    simp only [batch, maxSendIovecSize, List.take_succ_cons, totalBytes, List.map_cons,
      List.sum_cons] at h
    omega

/-! ## What the stream consists of -/

def acceptedBytes (log : List Obs) : List UInt8 :=
  log.flatMap fun
    | .accepted bytes => bytes
    | _ => []

def writtenBytes (log : List Obs) : List UInt8 :=
  log.flatMap fun
    | .written bytes => bytes
    | _ => []

structure Outgoing where
  sendLists : Fin 2 → List SendContext
  slistIdx : Fin 2
  accepted : List UInt8
  written : List UInt8
  failed : Bool

def World.outgoing (w : World) : Outgoing where
  sendLists := w.sock.sendLists
  slistIdx := w.sock.slistIdx
  accepted := acceptedBytes w.log
  written := writtenBytes w.log
  failed := decide (.writeError ∈ w.log)

def Obs.aside : Obs → Bool
  | .accepted _ | .written _ | .writeError => false
  | _ => true

theorem outgoing_aside {w w' : World} {l : List Obs} (lists : w'.sock.sendLists = w.sock.sendLists)
    (idx : w'.sock.slistIdx = w.sock.slistIdx) (log : w'.log = w.log ++ l)
    (aside : ∀ o ∈ l, o.aside = true) : w'.outgoing = w.outgoing := by
  have hacc : acceptedBytes l = [] := List.flatMap_eq_nil_iff.mpr fun o ho => by
    have := aside o ho
    cases o <;> first | rfl | cases this
  have hwr : writtenBytes l = [] := List.flatMap_eq_nil_iff.mpr fun o ho => by
    have := aside o ho
    cases o <;> first | rfl | cases this
  have hfail : .writeError ∉ l := fun h => nomatch aside _ h
  have happ : acceptedBytes (w.log ++ l) = acceptedBytes w.log := by
    rw [acceptedBytes, List.flatMap_append]
    exact (congrArg _ hacc).trans (List.append_nil _)
  have hwapp : writtenBytes (w.log ++ l) = writtenBytes w.log := by
    rw [writtenBytes, List.flatMap_append]
    exact (congrArg _ hwr).trans (List.append_nil _)
  unfold World.outgoing
  simp only [lists, idx, log, happ, hwapp, List.mem_append, hfail, or_false]

theorem Retimed.outgoing {w w' : World} (h : Retimed w w') : w'.outgoing = w.outgoing := by
  obtain ⟨t, hs⟩ := h.sock
  obtain ⟨l, hl, hcall⟩ := h.log
  refine outgoing_aside (by rw [hs]) (by rw [hs]) hl fun o ho => ?_
  have := hcall o ho
  cases o <;> first | rfl | cases this

theorem note_outgoing (w : World) {o : Obs} (h : o.aside = true) :
    (w.note o).outgoing = w.outgoing :=
  outgoing_aside rfl rfl rfl fun o' ho' => by rw [List.mem_singleton.mp ho']; exact h

def Outgoing.setSendList (o : Outgoing) (j : Fin 2) (l : List SendContext) : Outgoing :=
  { o with sendLists := Function.update o.sendLists j l }

def Outgoing.addFront (o : Outgoing) (j : Fin 2) : Outgoing :=
  (o.setSendList o.slistIdx (o.sendLists j ++ o.sendLists o.slistIdx)).setSendList j []

/-! ## What sections and moves do to it -/

inductive Queued (o : Outgoing) : Outgoing → Prop where
  | same : Queued o o
  | send (c : SendContext) (pos : 0 < c.len) : Queued o
      { o.setSendList o.slistIdx (o.sendLists o.slistIdx ++ [c]) with
        accepted := o.accepted ++ c.bytes }

theorem queueSend_queued (w : World) (buff : Buffer) (len : ℕ) (last : Bool) (pos : 0 < len) :
    Queued w.outgoing (queueSend w buff len last).outgoing := by
  have hlen : 0 < (getSendContext buff len).len := by
    simp only [getSendContext, pos, ↓reduceIte]
  have hout : (queueSend w buff len last).outgoing =
      { w.outgoing.setSendList w.outgoing.slistIdx
          (w.outgoing.sendLists w.outgoing.slistIdx ++ [getSendContext buff len]) with
        accepted := w.outgoing.accepted ++ (getSendContext buff len).bytes } := by
    simp [World.outgoing, queueSend, World.note, Outgoing.setSendList, setSendList, ptrSendlist,
      acceptedBytes, writtenBytes]
  rw [hout]
  exact .send _ hlen

/-- What a send of `len` bytes adds to the bytes accepted. -/
theorem queueSend_accepts (w : World) (buff : Buffer) {len : ℕ} (last : Bool) (pos : 0 < len) :
    ∃ bytes : List UInt8, bytes.length = len ∧
      acceptedBytes (queueSend w buff len last).log = acceptedBytes w.log ++ bytes ∧
      writtenBytes (queueSend w buff len last).log = writtenBytes w.log := by
  refine ⟨(getSendContext buff len).bytes, ?_, ?_, ?_⟩
  · rw [SendContext.length_bytes]
    simp only [getSendContext, pos, ↓reduceIte]
  · simp [queueSend, World.note, acceptedBytes]
  · simp [queueSend, World.note, writtenBytes]

theorem markShutdown_outgoing (w : World) : (markShutdown w).outgoing = w.outgoing := by
  unfold markShutdown
  dsimp only
  split
  · exact note_outgoing _ rfl
  · rfl

theorem section_queued {w : World} {r : World × Bool} (h : Section w r) :
    Queued w.outgoing r.1.outgoing := by
  have same {w' : World} (hr : w'.outgoing = w.outgoing) : Queued w.outgoing w'.outgoing :=
    hr ▸ .same
  cases h with
  | retimed h => exact same h.outgoing
  | timer h => rw [wake_eq]; exact same h.outgoing
  | @sent buff len last w' pos ho hs hm h =>
    rw [wake_eq]
    have hout : ∀ d, ({ w' with sock := { w'.sock with doing := d } } : World).outgoing =
      (queueSend w buff len last).outgoing := fun _ => h.outgoing
    rw [hout]
    exact queueSend_queued w buff len last pos
  | posted buff pos ho h =>
    rw [wake_eq]
    refine same (Eq.trans h.outgoing ?_)
    exact note_outgoing _ rfl
  | shutdown => exact same (markShutdown_outgoing w)
  | closed ho h => exact same ((note_outgoing _ rfl).trans h.outgoing)
  | set | started | arrive | writable => exact .same

def DoPc.sends : DoPc → Bool
  | .writev .. | .written .. => true
  | _ => false

theorem DoPc.quiet_not_sends {pc : DoPc} (h : pc.quiet) : pc.sends = false := by
  cases pc <;> first | rfl | cases h

theorem DoPc.sends_not_quiet {pc : DoPc} (h : pc.sends = true) : ¬ pc.quiet := by
  intro hq
  cases (DoPc.quiet_not_sends hq).symm.trans h

inductive Sent (o : Outgoing) : DoPc → Outgoing → Option DoPc → Prop where
  | same {pc : DoPc} {next : Option DoPc} (hpc : pc.sends = false)
      (hn : ∀ p ∈ next, p.sends = false) : Sent o pc o next
  | take {pc : DoPc} {i : ℕ} {ver : BitVec 32} (hpc : pc.sends = false) :
      Sent o pc { o with slistIdx := flip o.slistIdx } (some (.writev i o.slistIdx ver))
  | writevAll {i n : ℕ} {j : Fin 2} {ver : BitVec 32} (le : n ≤ totalBytes (batch (o.sendLists j)))
      (all : totalBytes (batch (o.sendLists j)) ≤ n) (null : curNull (o.sendLists j) = true) :
      Sent o (.writev i j ver)
        { o.setSendList j [] with
          written := o.written ++ (listBytes (batch (o.sendLists j))).take n }
        (some (.written i j ver (.ok n) (totalBytes (batch (o.sendLists j))) true))
  | writevPart {i n : ℕ} {j : Fin 2} {ver : BitVec 32}
      (le : n ≤ totalBytes (batch (o.sendLists j)))
      (part : ¬ (totalBytes (batch (o.sendLists j)) ≤ n ∧ curNull (o.sendLists j) = true))
      (pos : 0 < n ∨ totalBytes (batch (o.sendLists j)) = 0) :
      Sent o (.writev i j ver)
        { o with written := o.written ++ (listBytes (batch (o.sendLists j))).take n }
        (some (.written i j ver (.ok n) (totalBytes (batch (o.sendLists j)))
          (curNull (o.sendLists j))))
  | writevAgain {i total : ℕ} {j : Fin 2} {ver : BitVec 32} {null : Bool} :
      Sent o (.writev i j ver) o (some (.written i j ver .again total null))
  | writevError {i : ℕ} {j : Fin 2} {ver : BitVec 32} {next : Option DoPc} :
      Sent o (.writev i j ver) { o with failed := true } next
  | accounted {pc' : DoPc} {i n total : ℕ} {j : Fin 2} {ver : BitVec 32} {null : Bool}
      (hn : pc'.sends = false) (all : ¬ (0 < n ∧ (n < total ∨ null = false))) :
      Sent o (.written i j ver (.ok n) total null) o (some pc')
  | trimmed {pc' : DoPc} {i n total : ℕ} {j : Fin 2} {ver : BitVec 32} {null : Bool}
      {l : List SendContext} (hn : pc'.sends = false) (part : n < total ∨ null = false)
      (left : trim n (o.sendLists j) = some l) :
      Sent o (.written i j ver (.ok n) total null) ((o.setSendList j l).addFront j) (some pc')
  | restored {pc' : DoPc} {i total : ℕ} {j : Fin 2} {ver : BitVec 32} {null : Bool}
      (hn : pc'.sends = false) :
      Sent o (.written i j ver .again total null) (o.addFront j) (some pc')
  | gaveUp {pc' : DoPc} {i total : ℕ} {j : Fin 2} {ver : BitVec 32} {null : Bool} {errno : ℤ} :
      Sent o (.written i j ver (.error errno) total null) o (some pc')

theorem noteReceived_outgoing (w : World) (cb : Option Callback) (buff : RecvBuffer)
    (n : ℕ) : (noteReceived w cb buff n).outgoing = w.outgoing := by
  cases cb with
  | none => rfl
  | some cb => exact note_outgoing w rfl

theorem written_outgoing (w : World) (bytes : List UInt8) :
    (w.note (.written bytes)).outgoing =
      { w.outgoing with written := w.outgoing.written ++ bytes } := by
  simp [World.outgoing, World.note, acceptedBytes, writtenBytes]

theorem writeError_outgoing (w : World) :
    (w.note .writeError).outgoing = { w.outgoing with failed := true } := by
  simp [World.outgoing, World.note, acceptedBytes, writtenBytes]

/-- The test that ends the section notes a SHUT_WR at most and goes on to the switch. -/
theorem flushed_goes (w : World) (i : ℕ) (last : Bool) :
    ∃ w' act, flushed w i last = goto w' (.sendAction i act) ∧ w'.sock = w.sock ∧
      w'.outgoing = w.outgoing := by
  obtain ⟨l, act, hf, hl⟩ := flushed_eq w i last
  refine ⟨_, act, hf, rfl, outgoing_aside rfl rfl rfl fun o ho => ?_⟩
  rw [hl o ho]
  rfl

theorem writtenOk_sent {w : World} {i n total : ℕ} {j : Fin 2} {ver : BitVec 32} {null : Bool}
    {last : ℕ} {s' : TCPSocket}
    (put : putBackSend { w.sock with lastSendTime := last } j n total null = some s') :
    let o := flushed { w with sock := { s' with bytes4Send := s'.bytes4Send - UInt64.ofNat n } } i
      w.sock.closedOnFlush
    Sent w.outgoing (.written i j ver (.ok n) total null) o.world.outgoing o.next := by
  obtain ⟨w', act, hf, -, hout⟩ := flushed_goes
    { w with sock := { s' with bytes4Send := s'.bytes4Send - UInt64.ofNat n } } i
    w.sock.closedOnFlush
  simp only [hf]
  rw [goto, hout]
  unfold putBackSend at put
  split at put
  · rename_i hpart
    simp only [Option.map_eq_some_iff] at put
    obtain ⟨l', hl', rfl⟩ := put
    exact .trimmed rfl hpart.2 hl'
  · rename_i hall
    cases put
    exact .accounted rfl hall

theorem close_outgoing (w : World) : (close w).1.outgoing = w.outgoing := by
  unfold close
  split
  · rfl
  · exact (note_outgoing _ rfl).trans (cancelTimer_retimed (Retimed.refl w)).outgoing

theorem move_sent {w : World} {pc : DoPc} {o : Outcome} (h : Move w pc o) (hpc : pc ≠ .doClose) :
    Sent w.outgoing pc o.world.outgoing o.next := by
  have one {pc' : DoPc} (hn : pc'.sends = false) : ∀ p ∈ some pc', p.sends = false := by
    rintro p ⟨⟩; exact hn
  cases h with
  | quiet hq hq' h =>
    rw [goto, h.outgoing]
    exact .same (DoPc.quiet_not_sends hq) (one (DoPc.quiet_not_sends hq'))
  | @idle _ w' hq h =>
    have hr : ({ w' with sock := { w'.sock with doing := false } } : World).outgoing =
      w'.outgoing := rfl
    simp only [hr, h.outgoing]
    exact .same (DoPc.quiet_not_sends hq) (by simp)
  | leave hq h =>
    rw [goto, h.outgoing]
    exact .same (DoPc.quiet_not_sends hq) (one rfl)
  | readOk =>
    rw [goto, note_outgoing _ rfl]
    exact .same rfl (one rfl)
  | deliverFront =>
    rw [goto, noteReceived_outgoing]
    exact .same rfl (one rfl)
  | deliverList hl hnext =>
    rw [goto, noteReceived_outgoing]
    refine .same rfl (one ?_)
    rcases hnext with rfl | ⟨_, rfl⟩
    · rfl
    · exact DoPc.quiet_not_sends (afterRecv_quiet _ _)
  | @recvFinish i cw hold last =>
    obtain ⟨lists, hl⟩ := hold.finish_frame { w.sock with lastRecvTime := last }
    rw [goto, hl]
    exact .same rfl (one (DoPc.quiet_not_sends (afterRecv_quiet _ _)))
  | @restoreClear i cw ver hold | @restoreStale i cw ver hold =>
    obtain ⟨lists, hl⟩ := hold.restore_frame w.sock
    rw [goto, hl]
    exact .same rfl (one (DoPc.quiet_not_sends (afterRecv_quiet _ _)))
  | closing hq hq' =>
    rw [close_outgoing]
    exact .same (DoPc.quiet_not_sends hq) (one (DoPc.quiet_not_sends hq'))
  | sendTake => exact .take rfl
  | writevAll le all null =>
    rw [goto, written_outgoing]
    exact .writevAll le all null
  | writevPart le pos part =>
    rw [goto, written_outgoing]
    exact .writevPart le part pos
  | writevAgain => exact .writevAgain
  | writevError errno =>
    rw [goto, writeError_outgoing]
    exact .writevError
  | writtenOk last put => exact writtenOk_sent put
  | writtenClear => exact .restored rfl
  | writtenStale => exact .restored rfl
  | writtenError => exact .gaveUp
  | writtenClosed => exact .gaveUp
  | doClose => exact absurd rfl hpc
  | closeCallback =>
    rw [note_outgoing _ rfl]
    exact .same rfl (by simp)
  | noCallback => exact .same rfl (by simp)
  | _ => exact .same rfl (one rfl)

/-! ## The invariant -/

theorem flip_ne (i : Fin 2) : flip i ≠ i := by
  revert i; decide

theorem flip_flip (i : Fin 2) : flip (flip i) = i := by
  revert i; decide

def Io.bytes : Io → ℕ
  | .ok n => n
  | _ => 0

/-- What a task still has of the list it has taken. The bytes writev took are gone; the list shows
it once the section that follows has run. -/
def DoPc.held (lists : Fin 2 → List SendContext) : DoPc → List UInt8
  | .writev _ j _ => listBytes (lists j)
  | .written _ j _ io _ _ => (listBytes (lists j)).drop io.bytes
  | _ => []

/-- The list taken is the one that is not current, and the results of writev are about it. -/
def Outgoing.Pending (o : Outgoing) : DoPc → Prop
  | .writev _ j _ => j = flip o.slistIdx
  | .written _ j _ (.ok n) total null => j = flip o.slistIdx ∧
      (0 < n ∧ (n < total ∨ null = false) ∨ total ≤ n ∧ null = true ∧ o.sendLists j = [])
  | .written _ j _ .again _ _ => j = flip o.slistIdx
  | .written _ _ _ _ _ _ => False
  | _ => o.sendLists (flip o.slistIdx) = []

structure Stream (o : Outgoing) (tasks : List DoPc) : Prop where
  positive : ∀ j, ∀ c ∈ o.sendLists j, 0 < c.len
  idle : tasks = [] → o.sendLists (flip o.slistIdx) = []
  pending : ∀ pc ∈ tasks, o.Pending pc
  whole : o.written ++ tasks.flatMap (DoPc.held o.sendLists) ++
    listBytes (o.sendLists o.slistIdx) = o.accepted

theorem Stream.init : Stream Sys.init.world.outgoing [] where
  positive := fun _ _ h => by cases h
  idle := fun _ => rfl
  pending := fun _ h => by cases h
  whole := rfl

theorem eq_or_eq_flip (i j : Fin 2) : j = i ∨ j = flip i := by
  revert i j; decide

theorem pending_of_not_sends {o : Outgoing} {pc : DoPc} (h : pc.sends = false) :
    o.Pending pc ↔ o.sendLists (flip o.slistIdx) = [] := by
  cases pc <;> first | exact Iff.rfl | cases h

theorem held_of_not_sends {lists : Fin 2 → List SendContext} {pc : DoPc} (h : pc.sends = false) :
    pc.held lists = [] := by
  cases pc <;> first | rfl | cases h

/-- A task depends on the list it has taken, not on the current one. -/
theorem pending_congr {o : Outgoing} {pc : DoPc} (h : o.Pending pc) (o' : Outgoing)
    (idx : o'.slistIdx = o.slistIdx)
    (same : o'.sendLists (flip o.slistIdx) = o.sendLists (flip o.slistIdx)) :
    o'.Pending pc ∧ pc.held o'.sendLists = pc.held o.sendLists := by
  cases hs : pc.sends with
  | false =>
    rw [pending_of_not_sends hs, held_of_not_sends hs, held_of_not_sends hs, idx, same]
    exact ⟨(pending_of_not_sends hs).mp h, rfl⟩
  | true =>
    cases pc with
    | writev i j ver =>
      have hj : j = flip o.slistIdx := h
      exact ⟨hj.trans (congrArg flip idx.symm), by rw [DoPc.held, DoPc.held, hj, same]⟩
    | written i j ver io total null =>
      cases io with
      | ok n =>
        obtain ⟨hj, hres⟩ := h
        refine ⟨⟨hj.trans (congrArg flip idx.symm), ?_⟩, by rw [DoPc.held, DoPc.held, hj, same]⟩
        rw [hj] at hres ⊢
        rw [same]
        exact hres
      | again =>
        have hj : j = flip o.slistIdx := h
        exact ⟨hj.trans (congrArg flip idx.symm), by rw [DoPc.held, DoPc.held, hj, same]⟩
      | eof errno => cases h
      | error errno => cases h
    | _ => cases hs

/-- A context queued goes to the end of the current list, and the other list stays. -/
theorem Queued.appends {o o' : Outgoing} (h : Queued o o') :
    o'.slistIdx = o.slistIdx ∧ o'.written = o.written ∧
      o'.sendLists (flip o.slistIdx) = o.sendLists (flip o.slistIdx) ∧
      ∃ l, listBytes (o'.sendLists o.slistIdx) = listBytes (o.sendLists o.slistIdx) ++ l ∧
        o'.accepted = o.accepted ++ l := by
  cases h with
  | same => exact ⟨rfl, rfl, rfl, [], (List.append_nil _).symm, (List.append_nil _).symm⟩
  | send c pos =>
    refine ⟨rfl, rfl, Function.update_of_ne (flip_ne _) _ _, c.bytes, ?_, rfl⟩
    have hone : listBytes [c] = c.bytes := List.append_nil _
    simp only [Outgoing.setSendList, Function.update_self, listBytes_append, hone]

theorem Queued.positive {o o' : Outgoing} (h : Queued o o')
    (positive : ∀ j, ∀ c ∈ o.sendLists j, 0 < c.len) : ∀ j, ∀ c ∈ o'.sendLists j, 0 < c.len := by
  cases h with
  | same => exact positive
  | send c pos =>
    intro j d hd
    rcases eq_or_eq_flip o.slistIdx j with rfl | rfl
    · simp only [Outgoing.setSendList, Function.update_self] at hd
      rcases List.mem_append.mp hd with hd | hd
      · exact positive _ d hd
      · rw [List.mem_singleton.mp hd]
        exact pos
    · simp only [Outgoing.setSendList, Function.update_of_ne (flip_ne _)] at hd
      exact positive _ d hd

theorem Stream.queued {o o' : Outgoing} {tasks : List DoPc} (inv : Stream o tasks)
    (h : Queued o o') : Stream o' tasks := by
  obtain ⟨hidx, hwritten, hother, l, hlist, hacc⟩ := h.appends
  have kept (pc : DoPc) (hpc : pc ∈ tasks) := pending_congr (inv.pending pc hpc) o' hidx hother
  refine ⟨h.positive inv.positive, fun ht => ?_, fun pc hpc => (kept pc hpc).1, ?_⟩
  · rw [hidx, hother]
    exact inv.idle ht
  · have hheld : tasks.flatMap (DoPc.held o'.sendLists) = tasks.flatMap (DoPc.held o.sendLists) :=
      List.flatMap_congr fun pc hpc => (kept pc hpc).2
    rw [hwritten, hheld, hidx, hlist, hacc, ← inv.whole, ← List.append_assoc]

theorem stream_holding {o : Outgoing} {pc : DoPc} (positive : ∀ j, ∀ c ∈ o.sendLists j, 0 < c.len)
    (pending : o.Pending pc)
    (whole : o.written ++ pc.held o.sendLists ++ listBytes (o.sendLists o.slistIdx) =
      o.accepted) : Stream o [pc] := by
  refine ⟨positive, nofun, fun q hq => ?_, ?_⟩
  · rw [List.mem_singleton.mp hq]
    exact pending
  · rw [List.flatMap_singleton]
    exact whole

theorem Stream.holding {o : Outgoing} {pc : DoPc} (inv : Stream o [pc]) :
    o.Pending pc ∧
      o.written ++ pc.held o.sendLists ++ listBytes (o.sendLists o.slistIdx) = o.accepted := by
  have hwhole := inv.whole
  rw [List.flatMap_singleton] at hwhole
  exact ⟨inv.pending pc (List.mem_singleton.mpr rfl), hwhole⟩

/-- The put-back: what is left of the list taken goes in front of what was queued meanwhile. -/
theorem Stream.putBack {o : Outgoing} {l : List SendContext}
    (positive : ∀ j, ∀ c ∈ o.sendLists j, 0 < c.len) (left : ∀ c ∈ l, 0 < c.len)
    (whole : o.written ++ listBytes l ++ listBytes (o.sendLists o.slistIdx) = o.accepted)
    {pc' : DoPc} (hn : pc'.sends = false) :
    Stream ((o.setSendList (flip o.slistIdx) l).addFront (flip o.slistIdx)) [pc'] := by
  have hne := flip_ne o.slistIdx
  have hcur : ((o.setSendList (flip o.slistIdx) l).addFront (flip o.slistIdx)).sendLists
      o.slistIdx = l ++ o.sendLists o.slistIdx := by
    simp [Outgoing.addFront, Outgoing.setSendList, Function.update_of_ne hne.symm]
  have hother : ((o.setSendList (flip o.slistIdx) l).addFront (flip o.slistIdx)).sendLists
      (flip o.slistIdx) = [] := Function.update_self _ _ _
  refine stream_holding (fun j c hc => ?_) ((pending_of_not_sends hn).mpr hother) ?_
  · rcases eq_or_eq_flip o.slistIdx j with rfl | rfl
    · rw [hcur] at hc
      rcases List.mem_append.mp hc with hc | hc
      · exact left c hc
      · exact positive _ c hc
    · rw [hother] at hc; cases hc
  · have hlists : listBytes (((o.setSendList (flip o.slistIdx) l).addFront
        (flip o.slistIdx)).sendLists o.slistIdx) =
        listBytes l ++ listBytes (o.sendLists o.slistIdx) := by
      rw [hcur, listBytes_append]
    rw [held_of_not_sends hn, List.append_nil]
    refine Eq.trans ?_ whole
    rw [List.append_assoc]
    exact congrArg _ hlists

theorem Stream.wroteAll {o : Outgoing} {i n : ℕ} {j : Fin 2} {ver : BitVec 32}
    (inv : Stream o [.writev i j ver]) (all : totalBytes (batch (o.sendLists j)) ≤ n)
    (null : curNull (o.sendLists j) = true) :
    Stream { o.setSendList j [] with
        written := o.written ++ (listBytes (batch (o.sendLists j))).take n }
      [.written i j ver (.ok n) (totalBytes (batch (o.sendLists j))) true] := by
  obtain ⟨hj, hwhole⟩ := inv.holding
  have hj : j = flip o.slistIdx := hj
  have hcur : Function.update o.sendLists j [] o.slistIdx = o.sendLists o.slistIdx :=
    Function.update_of_ne (hj ▸ (flip_ne _).symm) _ _
  have htook : (listBytes (batch (o.sendLists j))).take n = listBytes (o.sendLists j) := by
    rw [batch_eq_of_curNull null] at all ⊢
    exact List.take_of_length_le (by rw [length_listBytes]; exact all)
  refine stream_holding (fun j' c hc => ?_) ⟨hj, .inr ⟨all, rfl, Function.update_self _ _ _⟩⟩ ?_
  · by_cases hjj : j' = j
    · rw [hjj] at hc
      simp [Outgoing.setSendList] at hc
    · simp only [Outgoing.setSendList, Function.update_of_ne hjj] at hc
      exact inv.positive j' c hc
  · simp only [DoPc.held, Outgoing.setSendList, Function.update_self, hcur, htook]
    rw [show listBytes [] = [] from rfl, List.drop_nil, List.append_nil]
    exact hwhole

theorem Stream.wrotePart {o : Outgoing} {i n : ℕ} {j : Fin 2} {ver : BitVec 32}
    (inv : Stream o [.writev i j ver]) (le : n ≤ totalBytes (batch (o.sendLists j)))
    (part : ¬ (totalBytes (batch (o.sendLists j)) ≤ n ∧ curNull (o.sendLists j) = true))
    (pos : 0 < n ∨ totalBytes (batch (o.sendLists j)) = 0) :
    Stream { o with written := o.written ++ (listBytes (batch (o.sendLists j))).take n }
      [.written i j ver (.ok n) (totalBytes (batch (o.sendLists j)))
        (curNull (o.sendLists j))] := by
  obtain ⟨hj, hwhole⟩ := inv.holding
  have hn : 0 < n := by
    rcases pos with pos | hzero
    · exact pos
    · have hnil := batch_nonempty (inv.positive j) hzero
      exact absurd ⟨by omega, by rw [hnil]; rfl⟩ part
  refine stream_holding inv.positive ⟨hj, .inl ⟨hn, ?_⟩⟩ ?_
  · by_cases hlt : n < totalBytes (batch (o.sendLists j))
    · exact .inl hlt
    · exact .inr (by simpa using fun hnull => part ⟨by omega, hnull⟩)
  · simp only [DoPc.held, Io.bytes, take_batch _ le]
    rw [← hwhole, DoPc.held, List.append_assoc o.written, List.take_append_drop]

theorem Stream.worker {o o' : Outgoing} {pc : DoPc} {next : Option DoPc} (inv : Stream o [pc])
    (h : Sent o pc o' next) (fine : o'.failed = false) : Stream o' next.toList := by
  obtain ⟨hpc, hwhole⟩ := inv.holding
  cases h with
  | same hs hn =>
    have hother := (pending_of_not_sends hs).mp hpc
    rw [held_of_not_sends hs] at hwhole
    refine ⟨inv.positive, fun _ => hother, fun q hq => ?_, ?_⟩
    · exact (pending_of_not_sends (hn q (Option.mem_toList.mp hq))).mpr hother
    · have hnil : next.toList.flatMap (DoPc.held o.sendLists) = [] :=
        List.flatMap_eq_nil_iff.mpr fun q hq => held_of_not_sends (hn q (Option.mem_toList.mp hq))
      rw [hnil]; exact hwhole
  | take hs =>
    have hother := (pending_of_not_sends hs).mp hpc
    rw [held_of_not_sends hs, List.append_nil] at hwhole
    refine stream_holding inv.positive (flip_flip _).symm ?_
    simp only [DoPc.held, hother]
    exact (List.append_nil _).trans hwhole
  | writevAll _ all null => exact inv.wroteAll all null
  | writevPart le part pos => exact inv.wrotePart le part pos
  | writevAgain =>
    refine stream_holding inv.positive hpc ?_
    simp only [DoPc.held, Io.bytes, List.drop_zero]
    exact hwhole
  | writevError => cases fine
  | @accounted pc' i n total j ver null hn all =>
    obtain ⟨hj, ⟨hpos, hpart⟩ | ⟨-, -, hnil⟩⟩ := hpc
    · exact absurd ⟨hpos, hpart⟩ all
    · have hother : o.sendLists (flip o.slistIdx) = [] := hj ▸ hnil
      rw [DoPc.held, hnil] at hwhole
      refine stream_holding inv.positive ((pending_of_not_sends hn).mpr hother) ?_
      rw [held_of_not_sends hn]
      simpa [listBytes] using hwhole
  | @trimmed pc' i n total j ver null l hn part left =>
    have hj : j = flip o.slistIdx := hpc.1
    subst hj
    refine Stream.putBack inv.positive (trim_positive left (inv.positive _)) ?_ hn
    rw [trim_bytes left]
    exact hwhole
  | @restored pc' i total j ver null hn =>
    have hj : j = flip o.slistIdx := hpc
    subst hj
    have hsame : o.addFront (flip o.slistIdx) = (o.setSendList (flip o.slistIdx)
        (o.sendLists (flip o.slistIdx))).addFront (flip o.slistIdx) := by
      rw [Outgoing.setSendList, Function.update_eq_self]
    rw [hsame]
    exact Stream.putBack inv.positive (inv.positive _) hwhole hn
  | gaveUp => cases hpc

/-! ## Runs -/

theorem Queued.failed {o o' : Outgoing} (h : Queued o o') : o'.failed = o.failed := by
  cases h <;> rfl

theorem Sent.failed {o o' : Outgoing} {pc : DoPc} {next : Option DoPc} (h : Sent o pc o' next)
    (fine : o'.failed = false) : o.failed = false := by
  cases h with
  | writevError => cases fine
  | _ => exact fine

theorem onActive_outgoing (w : World) (event : Event) (err : ℤ) :
    (onActive w event err).1.outgoing = w.outgoing := by
  unfold onActive
  rw [wake_eq]
  unfold setReady
  cases event.read <;> cases event.write <;> cases event.error <;> rfl

theorem stream_step {s s' : Sys} {a : Label} (h : Stepped s a s')
    (one : s.world.sock.closed = false → OneWorker s)
    (inv : s.world.sock.closed = false → s.world.outgoing.failed = false →
      Stream s.world.outgoing s.tasks)
    (opened : s'.world.sock.closed = false) (fine : s'.world.outgoing.failed = false) :
    Stream s'.world.outgoing s'.tasks := by
  cases h with
  | @apiCall a r h =>
    have hq := section_queued h
    exact (inv (section_orderly h opened).opened (hq.failed.symm.trans fine)).queued hq
  | collect event idle => exact inv opened fine
  | disable entered => exact inv opened fine
  | @onActive event err locking =>
    have ho := (onActive_orderly opened).opened
    have hsame := onActive_outgoing s.world event err
    have hfine : s.world.outgoing.failed = false := hsame ▸ fine
    have hinv := inv ho hfine
    rw [← hsame] at hinv
    exact hinv
  | post pos =>
    have hinv := inv opened fine
    have hcount := (one opened).count
    have := Bool.toNat_le s.world.sock.doing
    have hnone : s.tasks = [] := List.eq_nil_of_length_eq_zero (by omega)
    obtain ⟨hpos, hidle, -, hwhole⟩ := hinv
    rw [hnone] at hwhole
    refine ⟨hpos, fun h => by simp at h, fun pc hpc => ?_, ?_⟩
    · simp only [hnone, List.nil_append, List.mem_singleton] at hpc
      rw [hpc]
      exact hidle hnone
    · simpa [hnone, DoPc.held] using hwhole
  | @worker k io pc o at_ move =>
    have ho : s.world.sock.closed = false := move_opened move opened
    obtain ⟨hone, hk⟩ := (one ho).single at_
    have hlive := (one ho).live pc (List.mem_of_getElem? at_)
    have hsent := move_sent move (by rintro rfl; cases hlive)
    have hinv := inv ho (hsent.failed fine)
    rw [hone] at hinv
    have := hinv.worker hsent fine
    cases hn : o.next <;> simpa [Sys.resume, hone, hk, hn] using this

/-- The bytes of the lists the tasks have taken, each context from its `ptr` for `len` bytes. -/
def Sys.taken (s : Sys) : List UInt8 :=
  s.tasks.flatMap fun
    | .writev _ j _ | .written _ j _ _ _ _ => listBytes (s.world.sock.sendLists j)
    | _ => []

/-- A writev has returned a count that the list it was given does not show yet. -/
def DoPc.unaccounted : DoPc → Bool
  | .written _ _ _ (.ok _) _ _ => true
  | _ => false

/-- Until a write error or a close the bytes written, the bytes still held by the worker and the
bytes queued are the bytes accepted, in order. Outside the window between a writev and its section
the bytes held are the whole of the list taken. -/
theorem send_stream_whole {b : Build} {s : Sys} (h : Reachable b s)
    (opened : s.world.sock.closed = false) (fine : .writeError ∉ s.world.log) :
    writtenBytes s.world.log ++ s.tasks.flatMap (DoPc.held s.world.sock.sendLists) ++
        listBytes s.world.sock.ptrSendlist = acceptedBytes s.world.log ∧
      ((∀ pc ∈ s.tasks, pc.unaccounted = false) →
        writtenBytes s.world.log ++ s.taken ++ listBytes s.world.sock.ptrSendlist =
          acceptedBytes s.world.log) := by
  have inv : Stream s.world.outgoing s.tasks := by
    refine h.invariant (I := fun s => s.world.sock.closed = false →
      s.world.outgoing.failed = false → Stream s.world.outgoing s.tasks) ?_ ?_ opened (by
        simpa [World.outgoing] using fine)
    · exact fun _ _ => Stream.init
    · intro u v a run inv _ hstep
      exact stream_step (step_stepped hstep) (reachable_oneWorker run) inv
  refine ⟨inv.whole, fun hall => ?_⟩
  have hsame : s.taken = s.tasks.flatMap (DoPc.held s.world.sock.sendLists) := by
    refine List.flatMap_congr fun pc hpc => ?_
    cases pc with
    | written i j ver io total null =>
      cases io with
      | ok n => cases hall _ hpc
      | _ => rfl
    | _ => rfl
  rw [hsame]
  exact inv.whole

def partialRun : List Label :=
  [.start, .send (some ⟨[7, 8], 0, 2⟩) 0, .writable, .collect ⟨false, true, false⟩, .disable,
    .onActive 0, .post, .worker 0 .again, .worker 0 .again, .worker 0 .again, .worker 0 .again,
    .worker 0 (.ok 1)]

theorem send_stream_whole_partial : ∃ s : Sys,
    Machine.exec (step ⟨false⟩) Sys.init (partialRun ++ [.worker 0 .again]) = some s ∧
    writtenBytes s.world.log = [7] ∧ listBytes s.world.sock.ptrSendlist = [8] ∧
    (writtenBytes s.world.log ++ s.tasks.flatMap (DoPc.held s.world.sock.sendLists) ++
        listBytes s.world.sock.ptrSendlist = acceptedBytes s.world.log ∧
      ((∀ pc ∈ s.tasks, pc.unaccounted = false) →
        writtenBytes s.world.log ++ s.taken ++ listBytes s.world.sock.ptrSendlist =
          acceptedBytes s.world.log)) := by
  have h : (Machine.exec (step ⟨false⟩) Sys.init (partialRun ++ [.worker 0 .again])).map
      (fun s => (writtenBytes s.world.log, listBytes s.world.sock.ptrSendlist,
        s.world.sock.closed, decide (.writeError ∈ s.world.log))) =
      some ([7], [8], false, false) := rfl
  obtain ⟨s, hs, hview⟩ := Option.map_eq_some_iff.mp h
  simp only [Prod.mk.injEq, decide_eq_false_iff_not] at hview
  obtain ⟨hwritten, hqueued, hclosed, hfine⟩ := hview
  exact ⟨s, hs, hwritten, hqueued, send_stream_whole (b := ⟨false⟩)
    (Machine.Reaches.of_exec _ hs) hclosed hfine⟩

/-- Before the section after the writev, the byte written is still in the list taken. -/
theorem send_stream_counts_twice : ∃ s : Sys,
    Machine.exec (step ⟨false⟩) Sys.init partialRun = some s ∧ Reachable ⟨false⟩ s ∧
    s.world.sock.closed = false ∧ s.world.sock.shutdown = false ∧ .writeError ∉ s.world.log ∧
    writtenBytes s.world.log ++ s.taken ++ listBytes s.world.sock.ptrSendlist ≠
      acceptedBytes s.world.log := by
  have h : (Machine.exec (step ⟨false⟩) Sys.init partialRun).map
      (fun s => (s.world.sock.closed, s.world.sock.shutdown, decide (.writeError ∈ s.world.log),
        writtenBytes s.world.log ++ s.taken ++ listBytes s.world.sock.ptrSendlist,
        acceptedBytes s.world.log)) = some (false, false, false, [7, 7, 8], [7, 8]) := rfl
  obtain ⟨s, hs, hview⟩ := Option.map_eq_some_iff.mp h
  simp only [Prod.mk.injEq, decide_eq_false_iff_not] at hview
  obtain ⟨hclosed, hshut, hfine, hsum, hacc⟩ := hview
  refine ⟨s, hs, Machine.Reaches.of_exec _ hs, hclosed, hshut, hfine, ?_⟩
  rw [hsum, hacc]
  decide

end Hwnet.TCPSocket
