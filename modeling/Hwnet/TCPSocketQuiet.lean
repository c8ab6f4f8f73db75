import Hwnet.TCPSocketProgress
import Hwnet.TCPSocketClosures

set_option autoImplicit false

/-!
# A socket with nothing to do

When nothing calls the socket any more and every system call returns EAGAIN, each round of Do uses
up a readiness flag, and Do comes to an end. A socket error and the high water mark are not used up
by the callback they lead to.
-/
namespace Hwnet.TCPSocket

def quietDo (b : Build) (w : World) : DoPc → Option Outcome
  | .read i cw _ localVer hold => some (goto w (.readFailed i cw localVer hold none))
  | pc => doStep b w .again pc

inductive QuietLabel where
  | post
  | worker (k : ℕ)
  deriving DecidableEq, Repr

/-- Only tasks are posted and run; the callbacks return without touching the socket. -/
def quietStep (b : Build) (s : Sys) : QuietLabel → Option Sys
  | .post => postStep s
  | .worker k => (s.tasks[k]?.bind (quietDo b s.world)).map (s.resume k)

structure Sys.Idle (s : Sys) : Prop where
  doing : s.world.sock.doing = false
  tasks : s.tasks = []
  posting : s.posting = 0

/-! ## Fuel -/

def ready (s : TCPSocket) : ℕ := s.readable.toNat + s.writeable.toNat

def reads (s : TCPSocket) : Bool := s.readable && !s.recvList.isEmpty && !s.socketError

def writes (s : TCPSocket) : Bool := s.writeable && s.canWrite

def DoPc.consumes (s : TCPSocket) : DoPc → Bool
  | .queued | .lock _ | .sendTimeout .. | .recvTimeout .. | .doClose | .closeCallback _ => true
  | .body _ cr cw => cr && s.reads || cw && s.writes
  | .recvInWorker _ cw => s.reads || cw && s.writes
  | .read _ cw _ ver _ | .readFailed _ cw ver _ none =>
    decide (ver = s.readableVer) && s.readable || cw && s.writes
  | .sendInWorker _ => s.writes
  | .writev _ _ ver | .written _ _ ver .again _ _ =>
    decide (ver = s.writeableVer) && s.writeable
  | _ => false

def DoPc.taken (s : TCPSocket) : DoPc → ℕ
  | .deliver _ _ _ (.list j) _ => (s.recvLists j).length
  | _ => 0

def lastPass (i : ℕ) : ℕ := if maxLoop ≤ i then 5 else 0

def DoPc.rank : DoPc → ℕ
  | .queued => 25
  | .lock i => 24 + lastPass i
  | .sendTimeout i _ => 23 + lastPass i
  | .recvTimeout i _ => 22 + lastPass i
  | .body i _ _ => 21 + lastPass i
  | .recvInWorker .. => 20
  | .read .. => 19
  | .deliver .. => 18
  | .recvFinish .. => 17
  | .readFailed .. => 16
  | .recvError .. => 15
  | .sendInWorker _ => 14
  | .writev .. => 13
  | .written .. => 12
  | .enable _ => 11
  | .sendAction .. => 10
  | .closing _ => 9
  | .doClose => 2
  | .closeCallback _ => 1

/-- A round costs less than the flag it uses up. -/
def DoPc.fuel (s : TCPSocket) (pc : DoPc) : ℕ :=
  40 * (s.ready + (!pc.consumes s).toNat + pc.taken s) + pc.rank

theorem lastPass_le (i : ℕ) : lastPass i ≤ 5 := by
  unfold lastPass
  split <;> decide

theorem lock_fuel (s : TCPSocket) (i : ℕ) : (DoPc.lock i).fuel s ≤ 40 * s.ready + 29 := by
  have := lastPass_le i
  simp only [DoPc.fuel, DoPc.consumes, DoPc.taken, DoPc.rank, Bool.not_true, Bool.toNat_false]
  omega

/-- After recvInWorker only a writev can use up a flag. -/
theorem afterRecv_fuel (s : TCPSocket) (i : ℕ) (cw : Bool) :
    (afterRecv i cw).fuel s ≤ 40 * (s.ready + (!(cw && s.writes)).toNat) + 14 := by
  cases cw with
  | false =>
    have := lock_fuel s (i + 1)
    show (DoPc.lock (i + 1)).fuel s ≤ _
    simp only [Bool.false_and, Bool.not_false, Bool.toNat_true]
    omega
  | true =>
    show (DoPc.sendInWorker i).fuel s ≤ _
    simp only [DoPc.fuel, DoPc.consumes, DoPc.taken, DoPc.rank, Bool.true_and]
    omega

def spins (s : TCPSocket) : Bool := s.socketError || s.highWater && !s.shutdown

theorem reads_of_canRead {s : TCPSocket} (calm : s.spins = false) (h : s.canRead = true) :
    s.reads = true := by
  simp only [spins, Bool.or_eq_false_iff] at calm
  simp only [canRead, calm.1, Bool.or_false] at h
  simp [reads, h, calm.1]

theorem writes_of_canWrite {s : TCPSocket} (calm : s.spins = false) (h : s.canWrite = true) :
    s.writes = true := by
  simp only [spins, Bool.or_eq_false_iff, Bool.and_eq_false_imp, Bool.not_eq_false'] at calm
  have hcan := h
  simp only [canWrite, Bool.and_eq_true, Bool.or_eq_true, Bool.not_eq_true'] at h
  obtain ⟨⟨⟨hopen, -⟩, -⟩, hwork⟩ := h
  rcases hwork with hready | hhigh
  · simp [writes, hready.1, hcan]
  · cases hopen.symm.trans (calm.2 hhigh)

/-! ## A pass -/

def Goes (s : TCPSocket) (limit : ℕ) (o : Outcome) : Prop :=
  ∀ q ∈ o.next, q.loaded o.world.sock ∧ q.fuel o.world.sock < 40 * s.ready + limit

theorem Goes.mono {s : TCPSocket} {m n : ℕ} {o : Outcome} (h : Goes s m o) (le : m ≤ n) :
    Goes s n o := by
  intro q hq
  obtain ⟨hloaded, hless⟩ := h q hq
  exact ⟨hloaded, by omega⟩

theorem evaluate_goes {w : World} (i : ℕ) (opened : w.sock.closed = false)
    (calm : w.sock.spins = false) : Goes w.sock (22 + lastPass i) (evaluate w i) := by
  have h := evaluate_evaluated w i
  generalize evaluate w i = o at h
  intro q hq
  cases h with
  | close closed => cases opened.symm.trans closed
  | idle => cases hq
  | work _ able =>
    cases hq
    refine ⟨trivial, ?_⟩
    have hconsumes : (DoPc.body i w.sock.canRead w.sock.canWrite).consumes w.sock = true := by
      rcases able with h | h
      · simp [DoPc.consumes, h, reads_of_canRead calm h]
      · simp [DoPc.consumes, h, writes_of_canWrite calm h]
    show (DoPc.body i w.sock.canRead w.sock.canWrite).fuel w.sock < _
    rw [DoPc.fuel, hconsumes]
    simp only [DoPc.taken, DoPc.rank, Bool.not_true, Bool.toNat_false]
    omega

theorem checkTimeoutEnd_goes {w : World} (i : ℕ) (t : TimerId) (opened : w.sock.closed = false)
    (calm : w.sock.spins = false) : Goes w.sock (22 + lastPass i) (checkTimeoutEnd w i t) := by
  unfold checkTimeoutEnd
  split
  · exact evaluate_goes (w := w.releaseTimer t) i opened calm
  · exact evaluate_goes i opened calm

theorem checkTimeoutRecv_goes {w : World} (i : ℕ) (t : TimerId) (opened : w.sock.closed = false)
    (calm : w.sock.spins = false) : Goes w.sock (23 + lastPass i) (checkTimeoutRecv w i t) := by
  unfold checkTimeoutRecv
  split
  · intro q hq
    cases hq
    refine ⟨trivial, ?_⟩
    show 40 * (w.sock.ready + 0 + 0) + (22 + lastPass i) < _
    omega
  · exact (checkTimeoutEnd_goes i t opened calm).mono (by omega)

theorem checkTimeout_goes {w : World} (i : ℕ) (t : TimerId) (opened : w.sock.closed = false)
    (calm : w.sock.spins = false) : Goes w.sock (24 + lastPass i) (checkTimeout w i t) := by
  unfold checkTimeout
  split
  · exact (evaluate_goes i opened calm).mono (by omega)
  · split
    · intro q hq
      cases hq
      refine ⟨trivial, ?_⟩
      show 40 * (w.sock.ready + 0 + 0) + (23 + lastPass i) < _
      omega
    · exact (checkTimeoutRecv_goes i t opened calm).mono (by omega)

theorem doLock_goes {w : World} (i : ℕ) (opened : w.sock.closed = false)
    (calm : w.sock.spins = false) : Goes w.sock (24 + lastPass i) (doLock w i) := by
  unfold doLock
  split
  · exact (evaluate_goes i opened calm).mono (by omega)
  · exact checkTimeout_goes (w := { w with sock := { w.sock with closures := _ } }) i _ opened calm

/-! ## A round -/

def Descends (s : TCPSocket) (pc : DoPc) (o : Outcome) : Prop :=
  o.world.sock.closed = true ∨
    ∀ q ∈ o.next, q.loaded o.world.sock ∧ q.fuel o.world.sock < pc.fuel s

theorem descends_goto {s : TCPSocket} {w' : World} {pc pc' : DoPc} (loaded : pc'.loaded w'.sock)
    (less : pc'.fuel w'.sock < pc.fuel s) : Descends s pc (goto w' pc') := by
  right
  intro q hq
  cases hq
  exact ⟨loaded, less⟩

theorem descends_of_goes {s : TCPSocket} {limit : ℕ} {pc : DoPc} {o : Outcome} (h : Goes s limit o)
    (fuel : pc.fuel s = 40 * s.ready + limit) : Descends s pc o := by
  right
  intro q hq
  obtain ⟨hloaded, hless⟩ := h q hq
  exact ⟨hloaded, fuel ▸ hless⟩

theorem afterRecv_loaded (s : TCPSocket) (i : ℕ) (cw : Bool) : (afterRecv i cw).loaded s := by
  cases cw <;> trivial

theorem doBody_descends (w : World) (i : ℕ) (cr cw : Bool) :
    Descends w.sock (.body i cr cw) (doBody w i cr cw) := by
  unfold doBody
  split
  · rename_i last
    refine descends_goto trivial ?_
    have hlast : lastPass i = 5 := if_pos last
    simp only [DoPc.fuel, DoPc.consumes, DoPc.taken, DoPc.rank, hlast, Bool.not_true,
      Bool.toNat_false]
    omega
  · cases cr with
    | true =>
      refine descends_goto trivial ?_
      simp only [DoPc.fuel, DoPc.consumes, DoPc.taken, DoPc.rank, Bool.true_and]
      omega
    | false =>
      cases cw with
      | true =>
        refine descends_goto trivial ?_
        simp only [DoPc.fuel, DoPc.consumes, DoPc.taken, DoPc.rank, Bool.true_and,
          Bool.false_and, Bool.false_or]
        omega
      | false =>
        refine descends_goto trivial ?_
        have := lock_fuel w.sock (i + 1)
        simp only [DoPc.fuel, DoPc.consumes, DoPc.taken, DoPc.rank, Bool.false_and, Bool.or_self,
          Bool.not_false, Bool.toNat_true] at this ⊢
        omega

theorem recvTake_descends (b : Build) (w : World) (i : ℕ) (cw : Bool) :
    ∃ o, recvTake b w i cw = some o ∧ Descends w.sock (.recvInWorker i cw) o := by
  have hfuel : (DoPc.recvInWorker i cw).fuel w.sock =
      40 * (w.sock.ready + (!(w.sock.reads || cw && w.sock.writes)).toNat) + 20 := rfl
  unfold recvTake
  dsimp only
  by_cases hread : w.sock.canRead = true
  · rw [hread]
    cases herror : w.sock.socketError with
    | true =>
      refine ⟨_, rfl, descends_goto trivial ?_⟩
      have hreads : w.sock.reads = false := by simp [reads, herror]
      have hwrites : w.sock.writes = false := by simp [writes, canWrite, herror]
      rw [hfuel, hreads, hwrites]
      simp only [DoPc.fuel, DoPc.consumes, DoPc.taken, DoPc.rank, Bool.and_false, Bool.or_self,
        Bool.not_false, Bool.toNat_true]
      omega
    | false =>
      have hlist : w.sock.readable = true ∧ w.sock.recvList ≠ [] := by
        simpa [canRead, herror] using hread
      have hreads : w.sock.reads = true := by simp [reads, herror, hlist]
      have hconsumed {s : TCPSocket} {cb : Option Callback} {hold : Hold}
          (same : s.readableVer = w.sock.readableVer) (on : s.readable = w.sock.readable)
          (count : s.ready = w.sock.ready) :
          (DoPc.read i cw cb w.sock.readableVer hold).fuel s <
            (DoPc.recvInWorker i cw).fuel w.sock := by
        rw [hfuel, hreads]
        simp only [DoPc.fuel, DoPc.consumes, DoPc.taken, DoPc.rank, same, on, hlist.1, count,
          decide_true, Bool.true_and, Bool.true_or, Bool.not_true, Bool.toNat_false]
        omega
      cases b.gatherRecv with
      | true => exact ⟨_, rfl, descends_goto trivial (hconsumed rfl rfl rfl)⟩
      | false =>
        obtain ⟨front, rest, hfront⟩ := List.exists_cons_of_ne_nil hlist.2
        rw [hfront]
        exact ⟨_, rfl, descends_goto trivial (hconsumed rfl rfl rfl)⟩
  · have hreads : w.sock.reads = false := by
      simp only [canRead, Bool.or_eq_true, not_or, Bool.not_eq_true] at hread
      simp [reads, hread.1]
    rw [Bool.not_eq_true] at hread
    rw [hread]
    refine ⟨_, rfl, descends_goto (afterRecv_loaded _ i cw) ?_⟩
    have := afterRecv_fuel w.sock i cw
    rw [hfuel, hreads, Bool.false_or]
    omega

theorem deliverStep_descends {w : World} {i n : ℕ} {cw : Bool} {cb : Option Callback} {hold : Hold}
    (opened : w.sock.closed = false) (loaded : (DoPc.deliver i cw cb hold n).loaded w.sock) :
    ∃ o, deliverStep w i cw cb hold n = some o ∧
      Descends w.sock (.deliver i cw cb hold n) o := by
  cases hold with
  | front buff =>
    refine ⟨_, rfl, descends_goto trivial ?_⟩
    rw [noteReceived_sock]
    simp only [DoPc.fuel, DoPc.consumes, DoPc.taken, DoPc.rank]
    omega
  | list j =>
    by_cases hn : n = 0
    · refine ⟨goto w (.recvFinish i cw (.list j)), by simp [deliverStep, hn],
        descends_goto trivial ?_⟩
      simp only [DoPc.fuel, DoPc.consumes, DoPc.taken, DoPc.rank]
      omega
    · have hle : n ≤ Scattered.capacity (w.sock.recvLists j) := loaded
      cases hlist : w.sock.recvLists j with
      | nil =>
        rw [hlist] at hle
        exact absurd (Nat.le_zero.mp hle) hn
      | cons front rest =>
        rw [hlist, Scattered.capacity_cons] at hle
        have hrest : (w.sock.setRecvList j rest).recvLists j = rest := Function.update_self _ _ _
        refine ⟨goto (noteReceived { w with sock := w.sock.setRecvList j rest } cb front
          (min n front.len)) (.deliver i cw cb (.list j) (n - front.len)), ?_,
          descends_goto ?_ ?_⟩
        · simp [deliverStep, hn, hlist, noteReceived_sock, setRecvList, opened]
        · rw [noteReceived_sock]
          show n - front.len ≤ Scattered.capacity ((w.sock.setRecvList j rest).recvLists j)
          rw [hrest]
          omega
        · rw [noteReceived_sock]
          have hready : (w.sock.setRecvList j rest).ready = w.sock.ready := rfl
          simp only [DoPc.fuel, DoPc.consumes, DoPc.taken, DoPc.rank, hrest, hlist, hready,
            List.length_cons]
          omega

theorem recvFinishStep_descends (w : World) (i : ℕ) (cw : Bool) (hold : Hold) :
    Descends w.sock (.recvFinish i cw hold) (recvFinishStep w i cw hold) := by
  obtain ⟨lists, hlists⟩ := hold.finish_frame
    (if 0 < w.sock.recvTimeout then { w.sock with lastRecvTime := w.now } else w.sock)
  have hready : (hold.finish (if 0 < w.sock.recvTimeout then
      { w.sock with lastRecvTime := w.now } else w.sock)).ready = w.sock.ready := by
    rw [hlists]
    split <;> rfl
  refine descends_goto (afterRecv_loaded _ i cw) ?_
  have hafter := afterRecv_fuel (hold.finish (if 0 < w.sock.recvTimeout then
    { w.sock with lastRecvTime := w.now } else w.sock)) i cw
  have hle := Bool.toNat_le (!(cw && (hold.finish (if 0 < w.sock.recvTimeout then
    { w.sock with lastRecvTime := w.now } else w.sock)).writes))
  rw [hready] at hafter
  show (afterRecv i cw).fuel (hold.finish (if 0 < w.sock.recvTimeout then
    { w.sock with lastRecvTime := w.now } else w.sock)) < 40 * (w.sock.ready + 1 + 0) + 17
  omega

/-- What a task that may leave its round without using up a flag still has. -/
theorem less_of_round {s s' : TCPSocket} {pc pc' : DoPc} (free : pc.consumes s = false)
    (count : s'.ready = s.ready) (holds : pc'.taken s' = 0) (less : pc'.rank < pc.rank) :
    pc'.fuel s' < pc.fuel s := by
  have := Bool.toNat_le (!pc'.consumes s')
  simp only [DoPc.fuel, free, count, holds, Bool.not_false, Bool.toNat_true]
  omega

theorem lock_less {s s' : TCPSocket} {pc : DoPc} (free : pc.consumes s = false)
    (count : s'.ready = s.ready) (i : ℕ) : (DoPc.lock i).fuel s' < pc.fuel s := by
  have := lock_fuel s' i
  rw [count] at this
  simp only [DoPc.fuel, free, Bool.not_false, Bool.toNat_true] at this ⊢
  omega

theorem afterRecv_less {s s' : TCPSocket} {pc : DoPc} (free : pc.consumes s = false)
    (count : s'.ready = s.ready) (i : ℕ) (cw : Bool) (more : 14 < pc.rank) :
    (afterRecv i cw).fuel s' < pc.fuel s := by
  cases cw with
  | false => exact lock_less free count (i + 1)
  | true => exact less_of_round free count rfl more

theorem readFailedStep_descends (w : World) (i : ℕ) (cw : Bool) (ver : BitVec 32) (hold : Hold)
    (err : Option ℤ) :
    Descends w.sock (.readFailed i cw ver hold err) (readFailedStep w i cw ver hold err) := by
  cases err with
  | some errno => exact descends_goto trivial (less_of_round rfl rfl rfl (Nat.lt_add_one 15))
  | none =>
    obtain ⟨lists, hlists⟩ := hold.restore_frame w.sock
    have hfuel : (DoPc.readFailed i cw ver hold none).fuel w.sock = 40 * (w.sock.ready +
        (!(decide (ver = w.sock.readableVer) && w.sock.readable ||
          cw && w.sock.writes)).toNat) + 16 := rfl
    unfold readFailedStep
    dsimp only
    rw [hlists]
    by_cases hver : ver = w.sock.readableVer
    · rw [if_pos hver]
      refine descends_goto (afterRecv_loaded _ i cw) ?_
      have hafter := afterRecv_fuel
        { w.sock with recvLists := lists, readable := false } i cw
      have hwrites : writes { w.sock with recvLists := lists, readable := false } =
          w.sock.writes := rfl
      have hready : ready { w.sock with recvLists := lists, readable := false } =
          w.sock.writeable.toNat := Nat.zero_add _
      have hle := Bool.toNat_le (!(cw && w.sock.writes))
      rw [hwrites, hready] at hafter
      rw [hfuel, decide_eq_true hver, Bool.true_and, ready]
      refine Nat.lt_of_le_of_lt hafter ?_
      cases w.sock.readable with
      | true =>
        simp only [Bool.true_or, Bool.not_true, Bool.toNat_true, Bool.toNat_false]
        omega
      | false =>
        simp only [Bool.false_or, Bool.toNat_false]
        omega
    · rw [if_neg hver]
      refine descends_goto (afterRecv_loaded _ i cw) ?_
      have hafter := afterRecv_fuel { w.sock with recvLists := lists } i cw
      have hwrites : writes { w.sock with recvLists := lists } = w.sock.writes := rfl
      have hready : ready { w.sock with recvLists := lists } = w.sock.ready := rfl
      rw [hwrites, hready] at hafter
      rw [hfuel, decide_eq_false hver, Bool.false_and, Bool.false_or]
      exact Nat.lt_of_le_of_lt hafter (by omega)

theorem recvErrorStep_descends (w : World) (i : ℕ) (cw : Bool) (cb : Option Callback) :
    Descends w.sock (.recvError i cw cb) (recvErrorStep w i cw cb) := by
  cases cb with
  | some cb =>
    exact descends_goto (afterRecv_loaded _ i cw) (afterRecv_less rfl rfl i cw (Nat.lt_add_one 14))
  | none => exact .inl (close_closed w)

theorem sendTake_descends (w : World) (i : ℕ) :
    Descends w.sock (.sendInWorker i) (sendTake w i) := by
  unfold sendTake
  dsimp only
  split_ifs with hcan hhigh
  · have hfree : (DoPc.sendInWorker i).consumes w.sock = false := by
      rw [Bool.not_eq_true'] at hcan
      simp [DoPc.consumes, writes, hcan]
    exact descends_goto trivial (lock_less hfree rfl (i + 1))
  · have hfree : (DoPc.sendInWorker i).consumes w.sock = false := by
      rw [Bool.and_eq_true, Bool.not_eq_true'] at hhigh
      simp [DoPc.consumes, writes, hhigh.1]
    exact descends_goto trivial (less_of_round hfree rfl rfl (by show 10 < 14; decide))
  · refine descends_goto trivial ?_
    have hwriteable : (DoPc.writev i w.sock.slistIdx w.sock.writeableVer).consumes
        { w.sock with slistIdx := flip w.sock.slistIdx } = w.sock.writeable := by
      simp [DoPc.consumes]
    have hstart : (DoPc.sendInWorker i).consumes w.sock = w.sock.writeable := by
      rw [Bool.not_eq_true, Bool.not_eq_false'] at hcan
      simp [DoPc.consumes, writes, hcan]
    have hcount : ready { w.sock with slistIdx := flip w.sock.slistIdx } = w.sock.ready := rfl
    simp only [DoPc.fuel, hwriteable, hstart, hcount, DoPc.taken, DoPc.rank]
    omega

theorem writevAgain_descends (w : World) (i : ℕ) (j : Fin 2) (ver : BitVec 32) :
    ∃ o, writevStep w i j ver .again = some o ∧ Descends w.sock (.writev i j ver) o := by
  refine ⟨_, rfl, descends_goto trivial ?_⟩
  show 40 * (w.sock.ready + (!(decide (ver = w.sock.writeableVer) && w.sock.writeable)).toNat + 0)
    + 12 < 40 * (w.sock.ready + (!(decide (ver = w.sock.writeableVer) &&
      w.sock.writeable)).toNat + 0) + 13
  omega

theorem writtenAgain_descends (w : World) (i : ℕ) (j : Fin 2) (ver : BitVec 32) (total : ℕ)
    (null : Bool) :
    Descends w.sock (.written i j ver .again total null) (writtenAgain w i j ver) := by
  unfold writtenAgain
  dsimp only
  split
  · rename_i same
    refine descends_goto trivial ?_
    have hsame : ver = w.sock.writeableVer := same.symm
    show 40 * (w.sock.readable.toNat + 0 + 1 + 0) + 11 <
      40 * (w.sock.readable.toNat + w.sock.writeable.toNat +
        (!(decide (ver = w.sock.writeableVer) && w.sock.writeable)).toNat + 0) + 12
    rw [decide_eq_true hsame, Bool.true_and]
    cases w.sock.writeable <;> simp
  · rename_i stale
    have hfree : (DoPc.written i j ver .again total null).consumes w.sock = false := by
      have hne : ver ≠ w.sock.writeableVer := fun h => stale h.symm
      simp [DoPc.consumes, hne]
    exact descends_goto trivial (less_of_round hfree rfl rfl (by show 10 < 12; decide))

theorem putBackSend_some {s : TCPSocket} {j : Fin 2} {n total : ℕ} {null : Bool}
    (part : 0 < n ∧ (n < total ∨ null = false) → n < totalBytes (s.sendLists j)) :
    ∃ lists, putBackSend s j n total null = some { s with sendLists := lists } := by
  unfold putBackSend
  split
  · rename_i hpart
    obtain ⟨l, hl⟩ := trim_some (part hpart)
    rw [hl]
    exact ⟨_, rfl⟩
  · exact ⟨_, rfl⟩

theorem flushed_descends {s : TCPSocket} {w' : World} {pc : DoPc} {i : ℕ} {last : Bool}
    (free : pc.consumes s = false) (count : w'.sock.ready = s.ready) (more : 10 < pc.rank) :
    Descends s pc (flushed w' i last) := by
  obtain ⟨l, act, hflushed, -⟩ := flushed_eq w' i last
  rw [hflushed]
  exact descends_goto trivial (less_of_round free count rfl more)

theorem writtenOk_descends {w : World} {i : ℕ} {j : Fin 2} {ver : BitVec 32} {n total : ℕ}
    {null : Bool} (loaded : (DoPc.written i j ver (.ok n) total null).loaded w.sock) :
    ∃ o, writtenOk w i j n total null = some o ∧
      Descends w.sock (.written i j ver (.ok n) total null) o := by
  have hput : ∃ last lists, putBackSend (if 0 < w.sock.sendTimeout then
      { w.sock with lastSendTime := w.now } else w.sock) j n total null =
        some { w.sock with lastSendTime := last, sendLists := lists } := by
    split
    · obtain ⟨lists, hlists⟩ := putBackSend_some (s := { w.sock with lastSendTime := w.now }) loaded
      exact ⟨_, lists, hlists⟩
    · obtain ⟨lists, hlists⟩ := putBackSend_some (s := w.sock) loaded
      exact ⟨_, lists, hlists⟩
  obtain ⟨last, lists, hput⟩ := hput
  unfold writtenOk
  dsimp only
  rw [hput]
  exact ⟨_, rfl, flushed_descends rfl rfl (by show 10 < 12; decide)⟩

theorem sendActionStep_descends (w : World) (i : ℕ) (act : SendAction) :
    Descends w.sock (.sendAction i act) (sendActionStep w i act) := by
  have hlock : (DoPc.lock (i + 1)).fuel w.sock < (DoPc.sendAction i act).fuel w.sock :=
    lock_less rfl rfl (i + 1)
  have hclosing : (DoPc.closing i).fuel w.sock < (DoPc.sendAction i act).fuel w.sock :=
    less_of_round rfl rfl rfl (Nat.lt_add_one 9)
  cases act with
  | nothing => exact descends_goto trivial hlock
  | callHighwaterCallback cb bytes => cases cb <;> exact descends_goto trivial hlock
  | callFlushCallback cb last =>
    cases last with
    | false => exact descends_goto trivial hlock
    | true => exact descends_goto trivial hclosing
  | callErrorCallback cb =>
    cases cb with
    | none => exact descends_goto trivial hclosing
    | some cb => exact descends_goto trivial hlock

theorem writtenError_descends (w : World) (i : ℕ) (j : Fin 2) (ver : BitVec 32) (errno : ℤ)
    (total : ℕ) (null : Bool) :
    Descends w.sock (.written i j ver (.error errno) total null) (writtenError w i errno) := by
  unfold writtenError
  split
  · rename_i closed
    exact .inl closed
  · exact descends_goto trivial (less_of_round rfl rfl rfl (by show 10 < 12; decide))

/-- The worker of an open socket moves on and burns fuel, unless it finds what makes it spin. -/
theorem quietDo_descends {b : Build} {w : World} {pc : DoPc} (opened : w.sock.closed = false)
    (stays : pc.closes = false) (loaded : pc.loaded w.sock)
    (calm : pc.passes.isSome = true → w.sock.spins = false) :
    ∃ o, quietDo b w pc = some o ∧ Descends w.sock pc o := by
  cases pc with
  | queued =>
    refine ⟨_, rfl, descends_goto trivial ?_⟩
    show 40 * (w.sock.ready + 0 + 0) + (24 + 0) < 40 * (w.sock.ready + 0 + 0) + 25
    omega
  | lock i => exact ⟨_, rfl, descends_of_goes (doLock_goes i opened (calm rfl)) rfl⟩
  | sendTimeout i t =>
    exact ⟨_, rfl, descends_of_goes (checkTimeoutRecv_goes i t opened (calm rfl)) rfl⟩
  | recvTimeout i t =>
    exact ⟨_, rfl, descends_of_goes (checkTimeoutEnd_goes i t opened (calm rfl)) rfl⟩
  | body i cr cw => exact ⟨_, rfl, doBody_descends w i cr cw⟩
  | recvInWorker i cw => exact recvTake_descends b w i cw
  | read i cw cb ver hold =>
    exact ⟨_, rfl, descends_goto trivial (Nat.add_lt_add_left (show 16 < 19 by decide) _)⟩
  | deliver => exact deliverStep_descends opened loaded
  | recvFinish i cw hold => exact ⟨_, rfl, recvFinishStep_descends w i cw hold⟩
  | readFailed i cw ver hold err => exact ⟨_, rfl, readFailedStep_descends w i cw ver hold err⟩
  | recvError i cw cb => exact ⟨_, rfl, recvErrorStep_descends w i cw cb⟩
  | sendInWorker i => exact ⟨_, rfl, sendTake_descends w i⟩
  | writev i j ver => exact writevAgain_descends w i j ver
  | written i j ver io total null =>
    cases io with
    | ok n => exact writtenOk_descends loaded
    | again => exact ⟨_, rfl, writtenAgain_descends w i j ver total null⟩
    | eof => cases loaded
    | error errno => exact ⟨_, rfl, writtenError_descends w i j ver errno total null⟩
  | enable i => exact ⟨_, rfl, descends_goto trivial (lock_less rfl rfl (i + 1))⟩
  | sendAction i act => exact ⟨_, rfl, sendActionStep_descends w i act⟩
  | closing i => exact ⟨_, rfl, .inl (close_closed w)⟩
  | doClose | closeCallback => cases stays

end Hwnet.TCPSocket
