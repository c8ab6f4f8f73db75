import Hwnet.TCPSocketSystem

set_option autoImplicit false

/-!
# The arrays of writev and readv

sendInWorker stops filling `send_iovec` at its size. Under GATHER_RECV recvInWorker fills
`recv_iovec` from the whole list it has taken, however long that is.
-/
namespace Hwnet.TCPSocket

def maxRecvIovecSize : ℕ := 128

variable {β : Type}

structure Iovec (β : Type) where
  block : β
  iovBase : ℕ
  iovLen : ℕ
  deriving DecidableEq, Repr

structure Filling (β : Type) where
  stores : List (ℕ × Iovec β)
  c : ℕ
  totalBytes : ℕ
  deriving DecidableEq, Repr

def Filling.start : Filling β := ⟨[], 0, 0⟩

def Filling.store (f : Filling β) (v : Iovec β) : Filling β :=
  ⟨f.stores ++ [(f.c, v)], f.c + 1, f.totalBytes + v.iovLen⟩

def SendContext.iovec (c : SendContext) : Iovec (List UInt8) := ⟨c.buff.block, c.ptr, c.len⟩

def iovec (buff : RecvBuffer) : Iovec ℕ := ⟨buff.block, buff.b, buff.len⟩

def fillSendIovec (f : Filling (List UInt8)) : List SendContext → Filling (List UInt8)
  | [] => f
  | cur :: next =>
    if f.c < maxSendIovecSize then fillSendIovec (f.store cur.iovec) next else f

def fillRecvIovec (f : Filling ℕ) : List RecvBuffer → Filling ℕ
  | [] => f
  | it :: next => fillRecvIovec (f.store (iovec it)) next

/-- Every store is to an element of an array of this size, and no more elements are passed on. -/
def Filling.InBounds (f : Filling β) (size : ℕ) : Prop :=
  (∀ e ∈ f.stores, e.1 < size) ∧ f.c ≤ size

theorem Filling.InBounds.store {f : Filling β} {size : ℕ} (h : f.InBounds size) (lt : f.c < size)
    (v : Iovec β) : (f.store v).InBounds size := by
  refine ⟨fun e he => ?_, lt⟩
  rcases List.mem_append.mp he with he | he
  · exact h.1 e he
  · rw [List.mem_singleton.mp he]
    exact lt

theorem start_inBounds (size : ℕ) : (Filling.start : Filling β).InBounds size :=
  ⟨fun _ h => (by cases h), Nat.zero_le size⟩

theorem fillSendIovec_inBounds (l : List SendContext) {f : Filling (List UInt8)}
    (h : f.InBounds maxSendIovecSize) : (fillSendIovec f l).InBounds maxSendIovecSize := by
  induction l generalizing f with
  | nil => exact h
  | cons cur next ih =>
    unfold fillSendIovec
    split
    · rename_i lt
      exact ih (h.store lt _)
    · exact h

theorem fillRecvIovec_count (l : List RecvBuffer) (f : Filling ℕ) :
    (fillRecvIovec f l).c = f.c + l.length := by
  induction l generalizing f with
  | nil => rfl
  | cons it next ih =>
    rw [fillRecvIovec, ih, List.length_cons]
    simp only [Filling.store]
    omega

theorem fillRecvIovec_inBounds (l : List RecvBuffer) {f : Filling ℕ} {size : ℕ}
    (h : f.InBounds size) (fits : f.c + l.length ≤ size) : (fillRecvIovec f l).InBounds size := by
  induction l generalizing f with
  | nil => exact h
  | cons it next ih =>
    rw [List.length_cons] at fits
    refine ih (h.store (by omega) _) ?_
    simp only [Filling.store]
    omega

/-- For any lists the two loops stay in their arrays if and only if the receive list is no longer
than its array; the send loop always does. -/
theorem iovecs_in_bounds_iff (sendlist : List SendContext) (recvlist : List RecvBuffer) :
    (fillSendIovec .start sendlist).InBounds maxSendIovecSize ∧
        (fillRecvIovec .start recvlist).InBounds maxRecvIovecSize ↔
      recvlist.length ≤ maxRecvIovecSize := by
  constructor
  · intro h
    have hcount := fillRecvIovec_count recvlist .start
    have hle := h.2.2
    rw [hcount] at hle
    simp only [Filling.start] at hle
    omega
  · intro fits
    refine ⟨fillSendIovec_inBounds sendlist (start_inBounds _), ?_⟩
    refine fillRecvIovec_inBounds recvlist (start_inBounds _) ?_
    simp only [Filling.start]
    omega

/-! ## Lists of any length reach readv -/

def postedBuffer : RecvBuffer := ⟨0, 0, 1⟩

structure Gathering (s : Sys) (n : ℕ) : Prop where
  tasks : s.tasks = [.recvInWorker 0 false]
  opened : s.world.sock.closed = false
  callback : s.world.sock.recvCallback = some 1
  timeout : s.world.sock.recvTimeout = 0
  doing : s.world.sock.doing = true
  readable : s.world.sock.readable = true
  fine : s.world.sock.socketError = false
  length : s.world.sock.recvList.length = n

theorem Gathering.recv {b : Build} {s : Sys} {n : ℕ} (h : Gathering s n) :
    ∃ s', step b s (.recv (some postedBuffer)) = some s' ∧ Gathering s' (n + 1) := by
  refine ⟨_, rfl, ?_⟩
  obtain ⟨htasks, hopened, hcb, htimeout, hdoing, hreadable, hfine, hlength⟩ := h
  have hrecv : TCPSocket.recv s.world (some postedBuffer) =
      (queueRecv s.world postedBuffer, false) := by
    simp [TCPSocket.recv, _recv, postedBuffer, hopened, hcb, queueRecv, setRecvList, htimeout,
      hdoing, wake, World.note]
  rw [hrecv]
  refine ⟨htasks, hopened, hcb, htimeout, hdoing, hreadable, hfine, ?_⟩
  rw [← hlength]
  simp [Sys.unlock, queueRecv, World.note, setRecvList, recvList]

theorem Gathering.grow {b : Build} {s : Sys} {n : ℕ} (h : Gathering s n) (m : ℕ) :
    ∃ s', Machine.Reaches (step b) s s' ∧ Gathering s' (n + m) := by
  induction m with
  | zero => exact ⟨s, .refl, h⟩
  | succ m ih =>
    obtain ⟨t, hreach, ht⟩ := ih
    obtain ⟨u, hstep, hu⟩ := ht.recv (b := b)
    exact ⟨u, hreach.next trivial hstep, hu⟩

def gatherRun : List Label :=
  [.start, .setRecvCallback (some 1), .recv (some postedBuffer), .arrive [7] false,
    .collect ⟨true, false, false⟩, .disable, .onActive 0, .post, .worker 0 .again,
    .worker 0 .again, .worker 0 .again]

theorem gathering_start : ∃ s, Reachable ⟨true⟩ s ∧ Gathering s 1 := by
  have h : (Machine.exec (step ⟨true⟩) Sys.init gatherRun).map (fun s =>
      (s.tasks, s.world.sock.closed, s.world.sock.recvCallback, s.world.sock.recvTimeout,
        s.world.sock.doing, s.world.sock.readable, s.world.sock.socketError,
        s.world.sock.recvList.length)) =
      some ([.recvInWorker 0 false], false, some 1, 0, true, true, false, 1) := rfl
  obtain ⟨s, hs, hview⟩ := Option.map_eq_some_iff.mp h
  simp only [Prod.mk.injEq] at hview
  obtain ⟨htasks, hopened, hcb, htimeout, hdoing, hreadable, hfine, hlength⟩ := hview
  exact ⟨s, Machine.Reaches.of_exec gatherRun hs,
    ⟨htasks, hopened, hcb, htimeout, hdoing, hreadable, hfine, hlength⟩⟩

/-- However many buffers: a reachable state is about to hand them all to one readv. -/
theorem gather_any_length (n : ℕ) : ∃ (s : Sys) (ver : BitVec 32) (j : Fin 2),
    Reachable ⟨true⟩ s ∧ s.tasks = [.read 0 false (some 1) ver (.list j)] ∧
    (s.world.sock.recvLists j).length = n + 1 := by
  obtain ⟨s, hreach, hs⟩ := gathering_start
  obtain ⟨t, hgrow, ht⟩ := hs.grow (b := ⟨true⟩) n
  obtain ⟨htasks, hopened, hcb, htimeout, hdoing, hreadable, hfine, hlength⟩ := ht
  have hlist : t.world.sock.recvList ≠ [] := by
    intro hnil
    rw [hnil, List.length_nil] at hlength
    omega
  have htake : recvTake ⟨true⟩ t.world 0 false = some (goto
      { t.world with sock := { t.world.sock with rlistIdx := flip t.world.sock.rlistIdx } }
      (.read 0 false (some 1) t.world.sock.readableVer (.list t.world.sock.rlistIdx))) := by
    simp [recvTake, canRead, hreadable, hfine, hlist, hcb]
  have hstep : step ⟨true⟩ t (.worker 0 .again) = some (t.resume 0 (goto
      { t.world with sock := { t.world.sock with rlistIdx := flip t.world.sock.rlistIdx } }
      (.read 0 false (some 1) t.world.sock.readableVer (.list t.world.sock.rlistIdx)))) := by
    simp only [step, workerStep, htasks, List.getElem?_cons_zero, Option.bind_some, doStep, htake,
      Option.map_some]
  refine ⟨_, t.world.sock.readableVer, t.world.sock.rlistIdx,
    (hreach.trans hgrow).next trivial hstep, ?_, ?_⟩
  · simp only [Sys.resume, goto, htasks, List.set_cons_zero]
  · exact hlength.trans (Nat.add_comm 1 n)

/-- 129 buffers posted before the worker takes them. -/
theorem recv_iovec_overrun : ∃ (s : Sys) (ver : BitVec 32) (j : Fin 2), Reachable ⟨true⟩ s ∧
    s.tasks = [.read 0 false (some 1) ver (.list j)] ∧
    ¬ (fillRecvIovec .start (s.world.sock.recvLists j)).InBounds maxRecvIovecSize := by
  obtain ⟨s, ver, j, hreach, htasks, hlength⟩ := gather_any_length 128
  refine ⟨s, ver, j, hreach, htasks, fun h => ?_⟩
  have hle := h.2
  rw [fillRecvIovec_count, hlength] at hle
  exact absurd hle (by decide)

end Hwnet.TCPSocket
