import Hwnet.TCPSocketUnsent

set_option autoImplicit false

/-!
# The count of unsent bytes

`bytes4Send` is a `size_t`. It is the number of bytes in the two send lists up to multiples of
2^64, hence the number itself while that is below 2^64.
-/
namespace Hwnet.TCPSocket

def unsent (s : TCPSocket) : ℕ := ((List.finRange 2).map fun j => totalBytes (s.sendLists j)).sum

/-- A counter of what came in and has not gone out; a count in the window is out and still in it. -/
def Balanced (counter : UInt64) (accepted written window : ℕ) : Prop :=
  counter + UInt64.ofNat written = UInt64.ofNat (accepted + window)

variable {counter : UInt64} {accepted written window n : ℕ}

theorem Balanced.accept (h : Balanced counter accepted written window) (n : ℕ) :
    Balanced (counter + UInt64.ofNat n) (accepted + n) written window := by
  unfold Balanced at h ⊢
  have hsum : accepted + n + window = accepted + window + n := by omega
  rw [hsum, UInt64.ofNat_add, ← h]
  ac_rfl

theorem Balanced.write (h : Balanced counter accepted written 0) (n : ℕ) :
    Balanced counter accepted (written + n) n := by
  unfold Balanced at h ⊢
  rw [UInt64.ofNat_add, UInt64.ofNat_add, ← UInt64.add_assoc, h, Nat.add_zero]

theorem Balanced.account (h : Balanced counter accepted written n) :
    Balanced (counter - UInt64.ofNat n) accepted written 0 := by
  unfold Balanced at h ⊢
  calc
    counter - UInt64.ofNat n + UInt64.ofNat written =
        counter + UInt64.ofNat written - UInt64.ofNat n := by
      rw [UInt64.sub_eq_add_neg, UInt64.sub_eq_add_neg]
      ac_rfl
    _ = UInt64.ofNat (accepted + 0) := by
      rw [h, UInt64.ofNat_add, UInt64.add_sub_cancel, Nat.add_zero]

theorem Balanced.counter_eq (h : Balanced counter accepted written window)
    (le : written ≤ accepted + window) :
    counter = UInt64.ofNat (accepted + window - written) := by
  unfold Balanced at h
  have hsum : accepted + window = accepted + window - written + written := by omega
  rw [hsum, UInt64.ofNat_add] at h
  exact (UInt64.add_left_inj _).mp h

def Ledger (w : World) (window : ℕ) : Prop :=
  Balanced w.sock.bytes4Send (acceptedBytes w.log).length (writtenBytes w.log).length window

theorem Ledger.frame {w w' : World} {window : ℕ} (h : Ledger w window)
    (accepted : w'.outgoing.accepted = w.outgoing.accepted)
    (written : w'.outgoing.written = w.outgoing.written)
    (bytes : w'.sock.bytes4Send = w.sock.bytes4Send) : Ledger w' window := by
  have hacc : acceptedBytes w'.log = acceptedBytes w.log := accepted
  have hwritten : writtenBytes w'.log = writtenBytes w.log := written
  rw [Ledger, hacc, hwritten, bytes]
  exact h

theorem queueSend_ledger {w : World} {window len : ℕ} (h : Ledger w window) (buff : Buffer)
    (last : Bool) (pos : 0 < len) : Ledger (queueSend w buff len last) window := by
  obtain ⟨bytes, hlen, hacc, hwritten⟩ := queueSend_accepts w buff last pos
  rw [Ledger, hacc, hwritten, List.length_append, hlen]
  exact h.accept len

theorem written_ledger {w : World} (h : Ledger w 0) (bytes : List UInt8) :
    Ledger (w.note (.written bytes)) bytes.length := by
  have hout := written_outgoing w bytes
  have hacc : acceptedBytes (w.note (.written bytes)).log = acceptedBytes w.log :=
    congrArg Outgoing.accepted hout
  have hwritten : writtenBytes (w.note (.written bytes)).log = writtenBytes w.log ++ bytes :=
    congrArg Outgoing.written hout
  rw [Ledger, hacc, hwritten, List.length_append]
  exact Balanced.write h bytes.length

theorem batch_ledger {w : World} {l : List SendContext} {n : ℕ} (h : Ledger w 0)
    (le : n ≤ totalBytes (batch l)) :
    Ledger (w.note (.written ((listBytes (batch l)).take n))) n := by
  have hlen : ((listBytes (batch l)).take n).length = n := by
    rw [List.length_take, length_listBytes]
    exact Nat.min_eq_left le
  have hledger := written_ledger h ((listBytes (batch l)).take n)
  rwa [hlen] at hledger

/-- The counter follows the worker, with the window open between a writev and its section. -/
theorem move_ledger {w : World} {pc : DoPc} {o : Outcome} (h : Ledger w pc.inWindow)
    (sends : pc.sends = true) (move : Move w pc o) :
    ∃ p, o.next = some p ∧ Ledger o.world p.inWindow := by
  cases move with
  | writevAll le all null => exact ⟨_, rfl, batch_ledger (l := w.sock.sendLists _) h le⟩
  | writevPart le pos part => exact ⟨_, rfl, batch_ledger h le⟩
  | writevAgain => exact ⟨_, rfl, h⟩
  | writevError errno =>
    have hacc : (w.note .writeError).outgoing.accepted = w.outgoing.accepted := by
      rw [writeError_outgoing]
    have hwritten : (w.note .writeError).outgoing.written = w.outgoing.written := by
      rw [writeError_outgoing]
    exact ⟨_, rfl, Ledger.frame h hacc hwritten rfl⟩
  | writtenOk last put =>
    obtain ⟨lists, rfl⟩ := putBackSend_frame put
    obtain ⟨w', act, hf, hsock, hout⟩ := flushed_goes _ _ _
    rw [hf]
    refine ⟨_, rfl, Ledger.frame ?_ (congrArg Outgoing.accepted hout)
      (congrArg Outgoing.written hout) (congrArg TCPSocket.bytes4Send hsock)⟩
    exact Balanced.account h
  | writtenClear | writtenStale | writtenError | writtenClosed => exact ⟨_, rfl, h⟩
  | quiet hq | idle hq | leave hq | closing hq => exact absurd hq (DoPc.sends_not_quiet sends)
  | _ => cases sends

theorem Alone.inWindow_eq {s s' : Sys} (alone : Alone s) (alone' : Alone s')
    (tasks : ∀ pc, pc.sends = true → (pc ∈ s'.tasks ↔ pc ∈ s.tasks)) :
    s'.inWindow = s.inWindow := by
  rcases alone.same_tasks alone' tasks with hsame | ⟨hnone, hnone'⟩
  · rw [Sys.inWindow, hsame, Sys.inWindow]
  · rw [inWindow_of_none hnone, inWindow_of_none hnone']

theorem ledger_step {s s' : Sys} {a : Label} (h : SendStep s a s')
    (inv : Ledger s.world s.inWindow) (alone : Alone s) (alone' : Alone s')
    (before : doCloses s a = false) : Ledger s'.world s'.inWindow := by
  cases h with
  | aside world away tasks closing =>
    rw [alone.inWindow_eq alone' (sends_of_filter tasks)]
    exact inv.frame (congrArg Outgoing.accepted world.outgoing)
      (congrArg Outgoing.written world.outgoing) (congrArg SendPart.bytes4Send world.part)
  | sent caller buff len last pos opened write more world tasks =>
    have hwindow : s'.inWindow = s.inWindow := by rw [Sys.inWindow, tasks, Sys.inWindow]
    rw [hwindow]
    exact (queueSend_ledger inv buff last pos).frame (congrArg Outgoing.accepted world.outgoing)
      (congrArg Outgoing.written world.outgoing) (congrArg SendPart.bytes4Send world.part)
  | shutdown opened write =>
    have hout := markShutdown_outgoing s.world
    exact inv.frame (congrArg Outgoing.accepted hout) (congrArg Outgoing.written hout)
      (congrArg TCPSocket.bytes4Send (markShutdown_sock s.world) :)
  | take at_ can =>
    obtain ⟨-, hone, hnext⟩ := alone'.before at_ rfl rfl
    rw [inWindow_of_single hone] at inv
    rw [inWindow_of_single hnext]
    exact inv
  | @writes k io pc o at_ sends move =>
    have hone := (alone pc (List.mem_of_getElem? at_) sends).1
    obtain ⟨rfl, -⟩ := Machine.sole_of_length_le_one (by simp [hone]) at_
    rw [inWindow_of_single hone] at inv
    obtain ⟨p, hp, hledger⟩ := move_ledger inv sends move
    have hnext : (s.resume 0 o).tasks = [p] := by
      simp only [Sys.resume, hp, hone, List.set_cons_zero]
    rw [inWindow_of_single hnext]
    exact hledger
  | @calls k i io cb last at_ =>
    rw [alone.inWindow_eq alone' (sends_of_calls at_)]
    have hout : (s.world.note (.flushCallback cb)).outgoing = s.world.outgoing :=
      note_outgoing _ rfl
    exact inv.frame (congrArg Outgoing.accepted hout) (congrArg Outgoing.written hout) rfl
  | doClose at_ => simp [doCloses, at_] at before

theorem ledger_runs {b : Build} {s : Sys}
    (h : Machine.Runs (step b) (fun s a => doCloses s a = false) Sys.init s) :
    Ledger s.world s.inWindow := by
  have init : Ledger Sys.init.world Sys.init.inWindow := rfl
  refine h.invariant (I := fun s => Ledger s.world s.inWindow) init
    fun u v a run inv before hstep => ?_
  exact ledger_step (step_sendStep hstep) inv (reachable_alone run.reaches)
    (reachable_alone (.next run.reaches trivial hstep)) before

theorem unsent_eq (s : TCPSocket) :
    unsent s = totalBytes (s.sendLists (flip s.slistIdx)) + totalBytes s.ptrSendlist := by
  have hboth : unsent s = totalBytes (s.sendLists 0) + totalBytes (s.sendLists 1) := rfl
  have hidx : ∀ i : Fin 2, i = 0 ∨ i = 1 := by decide
  rcases hidx s.slistIdx with h | h
  · rw [hboth, ptrSendlist, h, Nat.add_comm]
    rfl
  · rw [hboth, ptrSendlist, h]
    rfl

theorem inWindow_of_settled {s : Sys} (settled : ∀ pc ∈ s.tasks, pc.unaccounted = false) :
    s.inWindow = 0 := by
  refine List.sum_eq_zero_iff_forall_eq_nat.mpr fun n hn => ?_
  obtain ⟨pc, hpc, rfl⟩ := List.mem_map.mp hn
  have := settled pc hpc
  cases pc with
  | written i j ver io total null => cases io <;> first | rfl | cases this
  | _ => rfl

/-- Outside the window the two lists hold what was accepted and not written. -/
theorem Unsent.length {s : Sys} (inv : Unsent s)
    (window : s.inWindow = 0) :
    (acceptedBytes s.world.log).length =
      (writtenBytes s.world.log).length + unsent s.world.sock := by
  have hwhole := congrArg List.length inv.whole
  rw [window, List.drop_zero, List.length_append, List.length_append, length_listBytes,
    length_listBytes] at hwhole
  rw [unsent_eq]
  omega

theorem Unsent.count {s : Sys} (inv : Unsent s) (ledger : Ledger s.world s.inWindow)
    (window : s.inWindow = 0) :
    s.world.sock.bytes4Send = UInt64.ofNat (unsent s.world.sock) := by
  have hlength := inv.length window
  rw [window] at ledger
  rw [ledger.counter_eq (by omega)]
  congr 1
  omega

theorem toNat_ofNat_of_lt {n : ℕ} (h : n < 2 ^ 64) : (UInt64.ofNat n).toNat = n := by
  rw [UInt64.toNat_ofNat']
  exact Nat.mod_eq_of_lt h

/-- Before `doClose` and outside the window `bytes4Send` is the number of bytes in the two lists
modulo 2^64. While that number is below 2^64 the counter is exact, `highWater` compares the true
number, and no subtraction wraps. -/
theorem bytes4Send_counts_unsent {b : Build} {s : Sys}
    (h : Machine.Runs (step b) (fun s a => doCloses s a = false) Sys.init s) :
    ((∀ pc ∈ s.tasks, pc.unaccounted = false) →
      s.world.sock.bytes4Send = UInt64.ofNat (unsent s.world.sock) ∧
      (unsent s.world.sock < 2 ^ 64 →
        s.world.sock.bytes4Send.toNat = unsent s.world.sock ∧
        s.world.sock.highWater = (decide (0 < s.world.sock.highWaterSize) &&
          decide (s.world.sock.highWaterSize.toNat < unsent s.world.sock)))) ∧
    ∀ i j ver n total null, .written i j ver (.ok n) total null ∈ s.tasks →
      (acceptedBytes s.world.log).length + n < (writtenBytes s.world.log).length + 2 ^ 64 →
        n ≤ s.world.sock.bytes4Send.toNat := by
  have inv := unsent_runs h
  have hledger := ledger_runs h
  refine ⟨fun settled => ?_, fun i j ver n total null hmem hlt => ?_⟩
  · have hbytes := inv.count hledger (inWindow_of_settled settled)
    refine ⟨hbytes, fun hlt => ?_⟩
    have hnat : s.world.sock.bytes4Send.toNat = unsent s.world.sock := by
      rw [hbytes, toNat_ofNat_of_lt hlt]
    refine ⟨hnat, ?_⟩
    rw [highWater, ← hnat]
    congr 1
  · have hwhole := congrArg List.length inv.whole
    rw [inWindow_of_single (inv.alone _ hmem rfl).1] at hledger
    simp only [List.length_append] at hwhole
    rw [hledger.counter_eq (by simp only [DoPc.inWindow]; omega), DoPc.inWindow,
      toNat_ofNat_of_lt (by omega)]
    omega

/-- One byte of two has been written and accounted for. -/
theorem bytes4Send_counts_unsent_partial : ∃ s : Sys,
    Machine.exec (Machine.guarded (fun s a => !doCloses s a) (step ⟨false⟩)) Sys.init
      (partialRun ++ [.worker 0 .again]) = some s ∧
    unsent s.world.sock = 1 ∧ s.world.sock.bytes4Send.toNat = unsent s.world.sock := by
  have h : (Machine.exec (Machine.guarded (fun s a => !doCloses s a) (step ⟨false⟩)) Sys.init
      (partialRun ++ [.worker 0 .again])).map
      (fun s => (unsent s.world.sock, s.tasks)) = some (1, [.sendAction 0 .nothing]) := rfl
  obtain ⟨s, hs, hview⟩ := Option.map_eq_some_iff.mp h
  simp only [Prod.mk.injEq] at hview
  have hruns : Machine.Runs (step ⟨false⟩) (fun s a => doCloses s a = false) Sys.init s :=
    .avoiding _ hs
  have hsettled : ∀ pc ∈ s.tasks, pc.unaccounted = false := by
    rw [hview.2]
    decide
  have hlt : unsent s.world.sock < 2 ^ 64 := by
    rw [hview.1]
    decide
  exact ⟨s, hs, hview.1, (((bytes4Send_counts_unsent hruns).1 hsettled).2 hlt).1⟩

/-! ## The counter wraps -/

theorem unsent_setSendList (s : TCPSocket) (l : List SendContext) :
    unsent (s.setSendList s.slistIdx l) =
      totalBytes (s.sendLists (flip s.slistIdx)) + totalBytes l := by
  have hother : (s.setSendList s.slistIdx l).sendLists (flip s.slistIdx) =
      s.sendLists (flip s.slistIdx) := Function.update_of_ne (flip_ne _) _ _
  have hcur : (s.setSendList s.slistIdx l).ptrSendlist = l := Function.update_self _ _ _
  rw [unsent_eq, hcur]
  exact congrArg (totalBytes · + _) hother

theorem totalBytes_singleton (c : SendContext) : totalBytes [c] = c.len := by
  simp [totalBytes]

structure Queueing (len n : ℕ) (s : Sys) : Prop where
  tasks : s.tasks = []
  opened : s.world.sock.closed = false
  write : s.world.sock.shutdown = false
  more : s.world.sock.closedOnFlush = false
  unready : s.world.sock.writeable = false
  low : s.world.sock.highWaterSize = 0
  idx : s.world.sock.slistIdx = 0
  timeout : s.world.sock.sendTimeout = 0
  queued : unsent s.world.sock = n * len
  bytes : s.world.sock.bytes4Send = UInt64.ofNat (n * len)

theorem queueing_send {n : ℕ} {s : Sys} {buff : Buffer} (h : Queueing buff.len n s)
    (pos : 0 < buff.len) (b : Build) :
    ∃ s', step b s (.send (some buff) 0) = some s' ∧ Queueing buff.len (n + 1) s' := by
  refine ⟨_, rfl, ?_⟩
  have hne : buff.len ≠ 0 := by omega
  have hsend : send s.world (some buff) 0 = (queueSend s.world buff buff.len false, false) := by
    simp [send, sendWith, _send, wake, highWater, queueSend, World.note, setSendList, hne, h.opened,
      h.write, h.more, h.unready, h.low, h.timeout]
  have hcount : unsent (queueSend s.world buff buff.len false).sock = (n + 1) * buff.len := by
    have hbefore := h.queued
    have hlen : (getSendContext buff buff.len).len = buff.len := by simp [getSendContext]
    refine (unsent_setSendList _ _).trans ?_
    show totalBytes (s.world.sock.sendLists (flip s.world.sock.slistIdx)) +
      totalBytes (s.world.sock.ptrSendlist ++ [getSendContext buff buff.len]) = _
    rw [unsent_eq] at hbefore
    rw [totalBytes_append, totalBytes_singleton, hlen, Nat.succ_mul]
    omega
  rw [hsend]
  refine ⟨h.tasks, h.opened, h.write, rfl, h.unready, h.low, h.idx, h.timeout, hcount, ?_⟩
  show s.world.sock.bytes4Send + UInt64.ofNat buff.len = _
  rw [h.bytes, ← UInt64.ofNat_add, Nat.succ_mul]

theorem queueing_run {buff : Buffer} (pos : 0 < buff.len) (b : Build) (n : ℕ) :
    ∃ s, Machine.exec (step b) Sys.init (List.replicate n (.send (some buff) 0)) = some s ∧
      Queueing buff.len n s := by
  induction n with
  | zero =>
    refine ⟨Sys.init, rfl, ⟨rfl, rfl, rfl, rfl, rfl, rfl, rfl, rfl, ?_, ?_⟩⟩
    · rw [Nat.zero_mul]
      rfl
    · rw [Nat.zero_mul]
      rfl
  | succ n ih =>
    obtain ⟨s, hs, hqueue⟩ := ih
    obtain ⟨s', hstep, hqueue'⟩ := queueing_send hqueue pos b
    refine ⟨s', ?_, hqueue'⟩
    rw [List.replicate_succ', Machine.exec_append, hs, Option.bind_some, Machine.exec, hstep]
    rfl

/-- A Buffer of 2^36 bytes sent 2^28 times: all of it is queued and the counter is at 0. -/
theorem bytes4Send_counts_unsent_wraps : ∃ s : Sys,
    Machine.exec (step ⟨false⟩) Sys.init
      (List.replicate (2 ^ 28) (.send (some ⟨List.replicate (2 ^ 36) 0, 0, 2 ^ 36⟩) 0)) = some s ∧
    s.tasks = [] ∧ s.world.sock.closed = false ∧ unsent s.world.sock = 2 ^ 64 ∧
    s.world.sock.bytes4Send.toNat = 0 := by
  have hpos : 0 < (Buffer.mk (List.replicate (2 ^ 36) 0) 0 (2 ^ 36)).len := Nat.two_pow_pos 36
  obtain ⟨s, hs, hqueue⟩ := queueing_run hpos ⟨false⟩ (2 ^ 28)
  have hsum : 2 ^ 28 * 2 ^ 36 = 2 ^ 64 := (Nat.pow_add 2 28 36).symm
  refine ⟨s, hs, hqueue.tasks, hqueue.opened, hqueue.queued.trans hsum, ?_⟩
  have hbytes := hqueue.bytes
  rw [hsum] at hbytes
  rw [hbytes]
  rfl

end Hwnet.TCPSocket
