import Hwnet.TCPSocketAccount

set_option autoImplicit false

/-!
# Sending over SSL

sendInWorkerSSL hands only the front context to SSL_write. It takes the list, puts it back and
counts like sendInWorker, but after a partial write it leaves the front context as it was.
-/
namespace Hwnet.TCPSocket

/-! ## sendInWorkerSSL -/

def offered (c : SendContext) : ℤ := (BitVec.ofNat 32 c.len).toInt

/-- SSLwrite of the front context; `again` is a want-read or a want-write. An empty list is a null
dereference, and there is no `cur == nullptr` to remember. -/
def sslWrite (w : World) (i : ℕ) (j : Fin 2) (localVer : BitVec 32) (io : Io) : Option Outcome :=
  match w.sock.sendLists j, io with
  | cur :: _, .ok n =>
    if (n : ℤ) ≤ offered cur then
      some (goto (w.note (.written (cur.bytes.take n)))
        (.written i j localVer (.ok n) cur.len false))
    else none
  | cur :: _, .again =>
    some (goto { w with kernel := { w.kernel with sndReady := false } }
      (.written i j localVer .again cur.len false))
  | cur :: _, .error errno =>
    some (goto (w.note .writeError) (.written i j localVer (.error errno) cur.len false))
  | _, _ => none

def sslWritten (w : World) (i : ℕ) (j : Fin 2) (n total : ℕ) : Option Outcome :=
  let s := if 0 < w.sock.sendTimeout then { w.sock with lastSendTime := w.now } else w.sock
  match s.sendLists j with
  | [] => none
  | cur :: rest =>
    -- `cur->ptr += n; cur->ptr -= n;` where the write was partial
    let left := if total ≤ n then rest else { cur with ptr := cur.ptr + n - n } :: rest
    let s := (s.setSendList j left).addFront j
    some (flushed { w with sock := { s with bytes4Send := s.bytes4Send - UInt64.ofNat n } } i
      w.sock.closedOnFlush)

/-- All else, the sections after a want and after an error among it, is as without SSL. -/
def sslDoStep (w : World) (io : Io) : DoPc → Option Outcome
  | .writev i j localVer => sslWrite w i j localVer io
  | .written i j _ (.ok n) total _ => sslWritten w i j n total
  | pc => doStep ⟨false⟩ w io pc

def sslStep (s : Sys) : Label → Option Sys
  | .worker k io => (s.tasks[k]?.bind (sslDoStep s.world io)).map (s.resume k)
  | a => step ⟨false⟩ s a

def partialWrite (s : Sys) : Label → Bool
  | .worker k (.ok n) =>
    match s.tasks[k]? with
    | some (.writev _ j _) => (s.world.sock.sendLists j).head?.any fun cur => decide (n < cur.len)
    | _ => false
  | _ => false

/-! ## What a step does -/

inductive SslMove (w : World) : Io → DoPc → Outcome → Prop where
  | write {i n : ℕ} {j : Fin 2} {ver : BitVec 32} {cur : SendContext} {rest : List SendContext}
      (list : w.sock.sendLists j = cur :: rest) (le : n ≤ cur.len) :
      SslMove w (.ok n) (.writev i j ver) (goto (w.note (.written (cur.bytes.take n)))
        (.written i j ver (.ok n) cur.len false))
  | want {i total : ℕ} {j : Fin 2} {ver : BitVec 32} :
      SslMove w .again (.writev i j ver)
        (goto { w with kernel := { w.kernel with sndReady := false } }
          (.written i j ver .again total false))
  | fails {i total : ℕ} {j : Fin 2} {ver : BitVec 32} (errno : ℤ) :
      SslMove w (.error errno) (.writev i j ver)
        (goto (w.note .writeError) (.written i j ver (.error errno) total false))
  | written {io : Io} {i n total : ℕ} {j : Fin 2} {ver : BitVec 32} {null : Bool}
      {cur : SendContext} {rest : List SendContext} (last : ℕ)
      (list : w.sock.sendLists j = cur :: rest) :
      SslMove w io (.written i j ver (.ok n) total null)
        (flushed { w with sock := { (({ w.sock with lastSendTime := last } : TCPSocket).setSendList j
          (if total ≤ n then rest else { cur with ptr := cur.ptr + n - n } :: rest)).addFront j with
            bytes4Send := w.sock.bytes4Send - UInt64.ofNat n } } i w.sock.closedOnFlush)

theorem le_of_offered {c : SendContext} {n : ℕ} (h : (n : ℤ) ≤ offered c) : n ≤ c.len := by
  rw [offered, BitVec.toInt_eq_toNat_cond, BitVec.toNat_ofNat] at h
  have hmod := Nat.mod_le c.len (2 ^ 32)
  split at h <;> omega

theorem sslWrite_move {w : World} {i : ℕ} {j : Fin 2} {ver : BitVec 32} {io : Io} {o : Outcome}
    (h : sslWrite w i j ver io = some o) : SslMove w io (.writev i j ver) o := by
  unfold sslWrite at h
  split at h
  · split at h
    · rename_i hlist hle
      cases h
      exact .write hlist (le_of_offered hle)
    · cases h
  · cases h
    exact .want
  · cases h
    exact .fails _
  · cases h

theorem sslWritten_move {w : World} {i n total : ℕ} {j : Fin 2} {ver : BitVec 32} {null : Bool}
    {io : Io} {o : Outcome} (h : sslWritten w i j n total = some o) :
    SslMove w io (.written i j ver (.ok n) total null) o := by
  unfold sslWritten at h
  by_cases ht : 0 < w.sock.sendTimeout
  · simp only [if_pos ht] at h
    split at h
    · cases h
    · rename_i hlist
      cases h
      exact .written w.now hlist
  · simp only [if_neg ht] at h
    split at h
    · cases h
    · rename_i hlist
      cases h
      exact .written w.sock.lastSendTime hlist

/-- A step is one of sendInWorkerSSL's own, or the one the socket without SSL makes. -/
theorem sslStep_cases {s s' : Sys} {a : Label} (h : sslStep s a = some s') :
    step ⟨false⟩ s a = some s' ∧
        (∀ k io i j ver, a = .worker k io → s.tasks[k]? ≠ some (.writev i j ver)) ∨
      ∃ k io pc o, a = .worker k io ∧ s.tasks[k]? = some pc ∧ SslMove s.world io pc o ∧
        s' = s.resume k o := by
  cases a with
  | worker k io =>
    have hstep := h
    simp only [sslStep, Option.map_eq_some_iff, Option.bind_eq_some_iff] at h
    obtain ⟨o, ⟨pc, hpc, ho⟩, rfl⟩ := h
    unfold sslDoStep at ho
    split at ho
    · exact .inr ⟨k, io, _, o, rfl, hpc, sslWrite_move ho, rfl⟩
    · exact .inr ⟨k, io, _, o, rfl, hpc, sslWritten_move ho, rfl⟩
    · rename_i hother hwritten
      refine .inl ⟨by simp [step, workerStep, hpc, ho], ?_⟩
      rintro _ _ i j ver ⟨⟩ hat
      exact hother i j ver (Option.some.inj (hpc.symm.trans hat))
  | _ => exact .inl ⟨h, fun _ _ _ _ _ h => by cases h⟩

theorem SslMove.goes {w : World} {io : Io} {pc : DoPc} {o : Outcome} (h : SslMove w io pc o) :
    pc.sends = true ∧ ∃ w' q, o = goto w' q ∧ q.closes = false ∧
      w'.sock.closed = w.sock.closed ∧ w'.sock.doing = w.sock.doing := by
  cases h with
  | write => exact ⟨rfl, _, _, rfl, rfl, rfl, rfl⟩
  | want => exact ⟨rfl, _, _, rfl, rfl, rfl, rfl⟩
  | fails => exact ⟨rfl, _, _, rfl, rfl, rfl, rfl⟩
  | written =>
    obtain ⟨l, act, hf, -⟩ := flushed_eq _ _ _
    exact ⟨rfl, _, _, hf, rfl, rfl, rfl⟩

/-! ## One worker -/

theorem sslStep_oneWorker {s s' : Sys} {a : Label} (h : sslStep s a = some s')
    (inv : s.world.sock.closed = false → OneWorker s) (opened : s'.world.sock.closed = false) :
    OneWorker s' := by
  rcases sslStep_cases h with ⟨hstep, -⟩ | ⟨k, io, pc, o, -, at_, move, rfl⟩
  · exact oneWorker_step (step_stepped hstep) inv opened
  · obtain ⟨-, w', q, rfl, hq, hclosed, hdoing⟩ := move.goes
    exact (inv (hclosed.symm.trans opened)).worker at_ (diligent_goto hq hdoing)

theorem sslStep_alone {s s' : Sys} {a : Label} (h : sslStep s a = some s') (inv : Alone s)
    (one : s.world.sock.closed = false → OneWorker s) : Alone s' := by
  rcases sslStep_cases h with ⟨hstep, -⟩ | ⟨k, io, pc, o, -, at_, move, rfl⟩
  · exact alone_step (step_stepped hstep) inv one
  · obtain ⟨hsends, w', q, rfl, -, -, hdoing⟩ := move.goes
    obtain ⟨hone, hposting, hbusy⟩ := inv pc (List.mem_of_getElem? at_) hsends
    obtain ⟨rfl, -⟩ := Machine.sole_of_length_le_one (by simp [hone]) at_
    intro p hp _
    have htasks : (s.resume 0 (goto w' q)).tasks = [q] := by
      simp only [Sys.resume, goto, hone, List.set_cons_zero]
    rw [htasks, List.mem_singleton] at hp
    rw [hp]
    exact ⟨htasks, hposting, hdoing.trans hbusy⟩

/-! ## The stream -/

def FrontTaken (s : Sys) : Prop :=
  ∀ i j ver n total null, .written i j ver (.ok n) total null ∈ s.tasks →
    n = total ∧ ∃ cur rest,
      s.world.sock.sendLists (flip s.world.sock.slistIdx) = cur :: rest ∧ cur.len = n

structure SslSent (s : Sys) : Prop where
  one : s.world.sock.closed = false → OneWorker s
  unsent : Unsent s
  ledger : Ledger s.world s.inWindow
  front : FrontTaken s

theorem FrontTaken.frame {s s' : Sys} (h : FrontTaken s)
    (other : s'.world.sock.sendLists (flip s'.world.sock.slistIdx) =
      s.world.sock.sendLists (flip s.world.sock.slistIdx))
    (tasks : ∀ pc, pc.unaccounted = true → pc ∈ s'.tasks → pc ∈ s.tasks) : FrontTaken s' := by
  intro i j ver n total null hmem
  rw [other]
  exact h i j ver n total null (tasks _ rfl hmem)

theorem queueSend_other (w : World) (buff : Buffer) (len : ℕ) (last : Bool) :
    (queueSend w buff len last).sock.sendLists (flip (queueSend w buff len last).sock.slistIdx) =
      w.sock.sendLists (flip w.sock.slistIdx) :=
  Function.update_of_ne (flip_ne _) _ _

theorem move_settles {w : World} {pc : DoPc} {o : Outcome} (move : Move w pc o)
    (sends : pc.sends = true) (before : ∀ i j ver, pc ≠ .writev i j ver) :
    ∀ q, o.next = some q → q.unaccounted = false := by
  intro q hnext
  cases move with
  | writevAll | writevPart | writevAgain | writevError => exact absurd rfl (before _ _ _)
  | writtenOk last put =>
    obtain ⟨l, act, hf, -⟩ := flushed_eq _ _ _
    rw [hf] at hnext
    cases hnext
    rfl
  | writtenClear | writtenStale | writtenError | writtenClosed => cases hnext; rfl
  | quiet hq | idle hq | leave hq | closing hq => exact absurd hq (DoPc.sends_not_quiet sends)
  | _ => cases sends

theorem unaccounted_sends {pc : DoPc} (h : pc.unaccounted = true) : pc.sends = true := by
  obtain ⟨i, j, ver, n, total, null, rfl⟩ := unaccounted_eq h
  rfl

theorem frontTaken_step {s s' : Sys} {a : Label} (h : SendStep s a s') (inv : FrontTaken s)
    (alone : Alone s) (before : doCloses s a = false)
    (other : ∀ k io i j ver, a = .worker k io → s.tasks[k]? ≠ some (.writev i j ver)) :
    FrontTaken s' := by
  have same {w w' : World} (h : w'.outgoing = w.outgoing) :
      w'.sock.sendLists (flip w'.sock.slistIdx) = w.sock.sendLists (flip w.sock.slistIdx) :=
    congrArg (fun o => o.sendLists (flip o.slistIdx)) h
  cases h with
  | aside world away tasks closing =>
    exact inv.frame (same world.outgoing) fun pc hpc =>
      (sends_of_filter tasks pc (unaccounted_sends hpc)).mp
  | sent caller buff len last pos opened write more world tasks =>
    refine inv.frame ((same world.outgoing).trans (queueSend_other _ _ _ _)) fun pc _ hpc => ?_
    rwa [tasks] at hpc
  | shutdown opened write => exact inv.frame (same (markShutdown_outgoing _)) fun _ _ => id
  | take at_ can =>
    intro i j ver n total null hmem
    rcases List.mem_or_eq_of_mem_set hmem with hmem | h
    · have hone := (alone _ hmem rfl).1
      have hat := List.mem_of_getElem? at_
      rw [hone, List.mem_singleton] at hat
      cases hat
    · cases h
  | @writes k io pc o at_ sends move =>
    have hone := (alone pc (List.mem_of_getElem? at_) sends).1
    obtain ⟨rfl, -⟩ := Machine.sole_of_length_le_one (by simp [hone]) at_
    have hpc : ∀ i j ver, pc ≠ .writev i j ver := by
      rintro i j ver rfl
      exact other 0 io i j ver rfl at_
    have hsettled := move_settles move sends hpc
    intro i j ver n total null hmem
    rw [resume_sole hone, Option.mem_toList] at hmem
    cases hsettled _ hmem
  | calls at_ =>
    exact inv.frame rfl fun pc hpc => (sends_of_calls at_ pc (unaccounted_sends hpc)).mp
  | doClose at_ => simp [doCloses, at_] at before

/-! ## The steps of sendInWorkerSSL -/

theorem listBytes_front {cur : SendContext} (rest : List SendContext) :
    (listBytes (cur :: rest)).drop cur.len = listBytes rest := by
  rw [listBytes_cons, List.drop_left' cur.length_bytes]

theorem Stream.front {o : Outgoing} {i : ℕ} {j : Fin 2} {ver : BitVec 32} {cur : SendContext}
    {rest : List SendContext} (h : Stream o [.writev i j ver])
    (list : o.sendLists j = cur :: rest) (total : ℕ) :
    Stream { o with written := o.written ++ cur.bytes }
      [.written i j ver (.ok cur.len) total false] := by
  obtain ⟨hj, hwhole⟩ := h.holding
  have hpos : 0 < cur.len := h.positive j cur (by rw [list]; exact List.mem_cons_self)
  rw [DoPc.held, list, listBytes_cons] at hwhole
  refine stream_holding h.positive ⟨hj, .inl ⟨hpos, .inr rfl⟩⟩ ?_
  rw [DoPc.held, list, Io.bytes, listBytes_front]
  simpa only [List.append_assoc] using hwhole

/-- The front context that has been written leaves the list, and the rest is put back. -/
theorem Stream.popped {o : Outgoing} {i total : ℕ} {j : Fin 2} {ver : BitVec 32} {null : Bool}
    {cur : SendContext} {rest : List SendContext} {pc' : DoPc}
    (h : Stream o [.written i j ver (.ok cur.len) total null])
    (list : o.sendLists j = cur :: rest) (hn : pc'.sends = false) :
    Stream ((o.setSendList j rest).addFront j) [pc'] := by
  obtain ⟨⟨hj, -⟩, hwhole⟩ := h.holding
  rw [DoPc.held, list, Io.bytes, listBytes_front] at hwhole
  rw [hj] at list ⊢
  refine Stream.putBack h.positive (fun c hc => h.positive (flip o.slistIdx) c ?_) hwhole hn
  rw [list]
  exact List.mem_cons_of_mem _ hc

theorem sslMove_sent {s : Sys} {k : ℕ} {io : Io} {pc : DoPc} {o : Outcome} (inv : SslSent s)
    (alone' : Alone (s.resume k o)) (at_ : s.tasks[k]? = some pc)
    (move : SslMove s.world io pc o) (whole : partialWrite s (.worker k io) = false) :
    Unsent (s.resume k o) ∧ Ledger (s.resume k o).world (s.resume k o).inWindow ∧
      FrontTaken (s.resume k o) := by
  have hmem := List.mem_of_getElem? at_
  have hone := (inv.unsent.alone pc hmem move.goes.1).1
  obtain ⟨rfl, -⟩ := Machine.sole_of_length_le_one (by simp [hone]) at_
  have htasks {w : World} {q : DoPc} : (s.resume 0 (goto w q)).tasks = [q] := by
    simp only [Sys.resume, goto, hone, List.set_cons_zero]
  have hfine : s.world.outgoing.failed = false := by
    cases hfail : s.world.outgoing.failed with
    | false => rfl
    | true =>
      obtain ⟨_, _, _, _, _, _, rfl⟩ := (inv.unsent.broken hfail).error pc hmem move.goes.1
      cases move
  have hstream := inv.unsent.fine hfine
  have hledger := inv.ledger
  rw [hone] at hstream
  rw [inWindow_of_single hone] at hledger
  cases move with
  | @write i n j ver cur rest list le =>
    have hn : n = cur.len := by
      simp only [partialWrite, at_, list, List.head?_cons, Option.any_some,
        decide_eq_false_iff_not, Nat.not_lt] at whole
      omega
    have hall : cur.bytes.take n = cur.bytes :=
      List.take_of_length_le (by rw [cur.length_bytes]; omega)
    have hj : j = flip s.world.sock.slistIdx := hstream.holding.1
    have hcounted := written_ledger hledger cur.bytes
    have hout := written_outgoing s.world cur.bytes
    rw [hall, hn] at alone' ⊢
    refine ⟨⟨alone', fun _ => ?_, fun hfail => ?_⟩, ?_, ?_⟩
    · rw [htasks]
      exact hout ▸ hstream.front list _
    · cases hfine.symm.trans ((congrArg Outgoing.failed hout).symm.trans hfail)
    · rw [inWindow_of_single htasks]
      rwa [cur.length_bytes] at hcounted
    · intro i' j' ver' n' total' null' hmem'
      rw [htasks, List.mem_singleton] at hmem'
      cases hmem'
      exact ⟨rfl, cur, rest, hj ▸ list, rfl⟩
  | @want i total j ver =>
    refine ⟨⟨alone', fun _ => ?_, fun hfail => ?_⟩, ?_, ?_⟩
    · rw [htasks]
      exact hstream.worker .writevAgain hfine
    · cases hfine.symm.trans hfail
    · rw [inWindow_of_single htasks]
      exact hledger
    · intro i' j' ver' n' total' null' hmem'
      rw [htasks, List.mem_singleton] at hmem'
      cases hmem'
  | @fails i total j ver errno =>
    have hout := writeError_outgoing s.world
    refine ⟨⟨alone', fun hok => ?_, fun _ => ?_⟩, ?_, ?_⟩
    · cases hok.symm.trans (congrArg Outgoing.failed hout)
    · exact hout ▸ hstream.breaks htasks
    · rw [inWindow_of_single htasks]
      exact hledger.frame (congrArg Outgoing.accepted hout :) (congrArg Outgoing.written hout :) rfl
    · intro i' j' ver' n' total' null' hmem'
      rw [htasks, List.mem_singleton] at hmem'
      cases hmem'
  | @written io i n total j ver null cur rest last list =>
    have hj : j = flip s.world.sock.slistIdx := hstream.holding.1.1
    obtain ⟨rfl, cur', rest', hlist', rfl⟩ := inv.front i j ver n total null hmem
    cases (hj ▸ list).symm.trans hlist'
    rw [if_pos (Nat.le_refl _)] at alone' ⊢
    obtain ⟨w', act, hf, hsock, hout⟩ := flushed_goes _ _ _
    rw [hf] at alone' ⊢
    refine ⟨⟨alone', fun _ => ?_, fun hfail => ?_⟩, ?_, ?_⟩
    · rw [htasks]
      exact hout ▸ hstream.popped list rfl
    · cases hfine.symm.trans ((congrArg Outgoing.failed hout).symm.trans hfail)
    · rw [inWindow_of_single htasks]
      refine Ledger.frame ?_ (congrArg Outgoing.accepted hout) (congrArg Outgoing.written hout)
        (congrArg TCPSocket.bytes4Send hsock)
      exact Balanced.account hledger
    · intro i' j' ver' n' total' null' hmem'
      rw [htasks, List.mem_singleton] at hmem'
      cases hmem'

theorem sslSent_step {s s' : Sys} {a : Label} (h : sslStep s a = some s') (inv : SslSent s)
    (before : doCloses s a = false) (whole : partialWrite s a = false) : SslSent s' := by
  have alone' := sslStep_alone h inv.unsent.alone inv.one
  have one' := sslStep_oneWorker h inv.one
  rcases sslStep_cases h with ⟨hstep, hother⟩ | ⟨k, io, pc, o, rfl, at_, move, rfl⟩
  · have hsend := step_sendStep hstep
    exact ⟨one', unsent_step hsend inv.unsent alone' before,
      ledger_step hsend inv.ledger inv.unsent.alone alone' before,
      frontTaken_step hsend inv.front inv.unsent.alone before hother⟩
  · obtain ⟨unsent, ledger, front⟩ := sslMove_sent inv alone' at_ move whole
    exact ⟨one', unsent, ledger, front⟩

theorem sslSent_init : SslSent Sys.init where
  one := fun _ => oneWorker_init
  unsent := unsent_init
  ledger := rfl
  front := fun _ _ _ _ _ _ h => by cases h

/-- Where no SSL_write takes a part of a context: before `doClose` the bytes SSL_write took and the
bytes queued are the bytes accepted, in order, and outside the window `bytes4Send` counts the bytes
queued, exactly so while these are fewer than 2^64. -/
theorem ssl_send_stream_whole {s : Sys}
    (h : Machine.Runs sslStep (fun s a => doCloses s a = false ∧ partialWrite s a = false)
      Sys.init s) :
    writtenBytes s.world.log ++
        (listBytes (s.world.sock.sendLists (flip s.world.sock.slistIdx))).drop s.inWindow ++
      listBytes s.world.sock.ptrSendlist = acceptedBytes s.world.log ∧
    ((∀ pc ∈ s.tasks, pc.unaccounted = false) →
      s.world.sock.bytes4Send = UInt64.ofNat (unsent s.world.sock) ∧
      (unsent s.world.sock < 2 ^ 64 →
        s.world.sock.bytes4Send.toNat = unsent s.world.sock)) := by
  have inv : SslSent s := by
    refine h.invariant (I := SslSent) sslSent_init fun u v a run inv meets hstep => ?_
    exact sslSent_step hstep inv meets.1 meets.2
  refine ⟨inv.unsent.whole, fun settled => ?_⟩
  have hbytes := inv.unsent.count inv.ledger (inWindow_of_settled settled)
  refine ⟨hbytes, fun hlt => ?_⟩
  rw [hbytes, toNat_ofNat_of_lt hlt]

def sslRun (n : ℕ) : List Label :=
  [.start, .send (some ⟨[7, 8], 0, 2⟩) 0, .send (some ⟨[9], 0, 1⟩) 0, .writable,
    .collect ⟨false, true, false⟩, .disable, .onActive 0, .post, .worker 0 .again,
    .worker 0 .again, .worker 0 .again, .worker 0 .again, .worker 0 (.ok n), .worker 0 .again]

theorem ssl_send_stream_whole_front : ∃ s : Sys,
    Machine.exec (Machine.guarded (fun s a => !doCloses s a && !partialWrite s a) sslStep) Sys.init
      (sslRun 2) = some s ∧ unsent s.world.sock = 1 ∧ s.world.sock.bytes4Send.toNat = 1 := by
  have h : (Machine.exec (Machine.guarded (fun s a => !doCloses s a && !partialWrite s a) sslStep)
      Sys.init (sslRun 2)).map (fun s => (unsent s.world.sock, s.tasks)) =
        some (1, [.sendAction 0 .nothing]) := rfl
  obtain ⟨s, hs, hview⟩ := Option.map_eq_some_iff.mp h
  simp only [Prod.mk.injEq] at hview
  have hruns : Machine.Runs sslStep (fun s a => doCloses s a = false ∧ partialWrite s a = false)
      Sys.init s := (Machine.Runs.of_exec _ hs).mono fun _ _ h => by simpa using h
  have hsettled : ∀ pc ∈ s.tasks, pc.unaccounted = false := by
    rw [hview.2]
    decide
  have hlt : unsent s.world.sock < 2 ^ 64 := by
    rw [hview.1]
    decide
  exact ⟨s, hs, hview.1, (((ssl_send_stream_whole hruns).2 hsettled).2 hlt).trans hview.1⟩

/-- SSL_write takes one byte of two: the byte stays queued, and the count goes down. -/
theorem ssl_send_repeats_bytes : ∃ s : Sys,
    Machine.exec sslStep Sys.init (sslRun 1) = some s ∧ s.inWindow = 0 ∧
    writtenBytes s.world.log = [7] ∧
    listBytes (s.world.sock.sendLists (flip s.world.sock.slistIdx)) = [] ∧
    listBytes s.world.sock.ptrSendlist = [7, 8, 9] ∧ acceptedBytes s.world.log = [7, 8, 9] ∧
    unsent s.world.sock = 3 ∧ s.world.sock.bytes4Send = 2 := by
  have h : (Machine.exec sslStep Sys.init (sslRun 1)).map (fun s => (s.inWindow,
      writtenBytes s.world.log, listBytes (s.world.sock.sendLists (flip s.world.sock.slistIdx)),
      listBytes s.world.sock.ptrSendlist, acceptedBytes s.world.log, unsent s.world.sock,
      s.world.sock.bytes4Send)) =
        some (0, [7], [], [7, 8, 9], [7, 8, 9], 3, 2) := rfl
  obtain ⟨s, hs, hview⟩ := Option.map_eq_some_iff.mp h
  simp only [Prod.mk.injEq] at hview
  exact ⟨s, hs, hview⟩

end Hwnet.TCPSocket
