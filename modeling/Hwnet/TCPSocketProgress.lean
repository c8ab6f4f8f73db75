import Hwnet.TCPSocketFullWrite
import Hwnet.TCPSocketReceived

set_option autoImplicit false

/-!
# No worker is stuck

A delivery runs off its list of buffers, or the loop after a partial write off its list of
contexts, only if the count of the system call was not about that list.
-/
namespace Hwnet.TCPSocket

def DoPc.loaded (s : TCPSocket) : DoPc → Prop
  | .deliver _ _ _ (.list j) n => n ≤ Scattered.capacity (s.recvLists j)
  | .written _ j _ (.ok n) total null =>
    0 < n ∧ (n < total ∨ null = false) → n < totalBytes (s.sendLists j)
  | .written _ _ _ (.eof _) _ _ => False
  | _ => True

theorem loaded_grows {s s' : TCPSocket} {pc : DoPc} (h : pc.loaded s)
    (recvs : ∀ j, Scattered.capacity (s.recvLists j) ≤ Scattered.capacity (s'.recvLists j))
    (sends : ∀ j, totalBytes (s.sendLists j) ≤ totalBytes (s'.sendLists j)) : pc.loaded s' := by
  cases pc with
  | deliver i cw cb hold n =>
    cases hold with
    | front buff => trivial
    | list j => exact Nat.le_trans h (recvs j)
  | written i j ver io total null =>
    cases io with
    | ok n => exact fun part => Nat.lt_of_lt_of_le (h part) (sends j)
    | eof => cases h
    | again | error => trivial
  | _ => trivial

theorem post_capacity (i : Incoming) (buff : RecvBuffer) (j : Fin 2) :
    Scattered.capacity (i.recvLists j) ≤ Scattered.capacity ((i.post buff).recvLists j) := by
  by_cases hj : j = i.rlistIdx
  · simp [Incoming.post, hj, Scattered.capacity]
  · rw [Incoming.post]
    simp only [Function.update_of_ne hj]
    exact Nat.le_refl _

theorem section_capacity {w : World} {r : World × Bool} (h : Section w r) (j : Fin 2) :
    Scattered.capacity (w.sock.recvLists j) ≤ Scattered.capacity (r.1.sock.recvLists j) := by
  have hlists (w : World) : w.sock.recvLists = w.incoming.recvLists := rfl
  rw [hlists w, hlists r.1]
  rcases section_incoming h with hsame | ⟨buff, -, hpost⟩
  · exact Nat.le_of_eq (by rw [hsame])
  · rw [hpost]
    exact post_capacity w.incoming buff j

theorem queued_totalBytes {o o' : Outgoing} (h : Queued o o') (j : Fin 2) :
    totalBytes (o.sendLists j) ≤ totalBytes (o'.sendLists j) := by
  cases h with
  | same => exact Nat.le_refl _
  | send c pos =>
    simp only [Outgoing.setSendList]
    by_cases hj : j = o.slistIdx
    · rw [hj, Function.update_self, totalBytes_append]
      exact Nat.le_add_right _ _
    · exact Nat.le_of_eq (by rw [Function.update_of_ne hj])

theorem received_loaded {w : World} {pc : DoPc} {i' : Incoming} {next : Option DoPc}
    (h : Received w pc i' next) (loaded : pc.loaded w.sock) {i : ℕ} {cw : Bool}
    {cb : Option Callback} {j : Fin 2} {m : ℕ}
    (hnext : next = some (.deliver i cw cb (.list j) m)) :
    m ≤ Scattered.capacity (i'.recvLists j) := by
  have after (n : ℕ) (cw' : Bool) :
      some (afterRecv n cw') ≠ some (.deliver i cw cb (.list j) m) := by
    intro heq
    cases cw' <;> cases heq
  cases h with
  | apart _ h' => cases h' _ hnext
  | read pos fits =>
    cases hnext
    exact fits
  | @deliverList _ m' _ _ _ front rest more list =>
    cases hnext
    have hlist : m' ≤ Scattered.capacity (w.sock.recvLists j) := loaded
    have hrest : ((w.incoming.setRecvList j rest).deliver cb front
        (min m' front.len)).recvLists j = rest := by
      cases cb <;> exact Function.update_self _ _ _
    rw [list, Scattered.capacity_cons] at hlist
    rw [hrest]
    omega
  | deliverClosed => exact absurd hnext (after _ _)
  | finish => exact absurd hnext (after _ _)
  | restore => exact absurd hnext (after _ _)
  | takeFront | takeList | readFails | deliverFront | deliverEnd | failed => cases hnext

theorem move_written {w : World} {pc : DoPc} {o : Outcome} (h : Move w pc o)
    (positive : ∀ j, ∀ c ∈ w.sock.sendLists j, 0 < c.len) {i : ℕ} {j : Fin 2} {ver : BitVec 32}
    {io : Io} {total : ℕ} {null : Bool} (hnext : o.next = some (.written i j ver io total null)) :
    (DoPc.written i j ver io total null).loaded o.world.sock := by
  have after (n : ℕ) (cw' : Bool) :
      some (afterRecv n cw') ≠ some (.written i j ver io total null) := by
    intro heq
    cases cw' <;> cases heq
  cases h with
  | writevAll le all null =>
    cases hnext
    intro part
    rcases part.2 with hless | hnull
    · exact absurd all (Nat.not_le.mpr hless)
    · cases hnull
  | writevPart le some_ part =>
    cases hnext
    intro hpart
    have hsum := totalBytes_append (batch (w.sock.sendLists j))
      ((w.sock.sendLists j).drop maxSendIovecSize)
    rw [batch, List.take_append_drop, ← batch] at hsum
    show _ < totalBytes (w.sock.sendLists j)
    rcases hpart.2 with hless | hnull
    · omega
    · have hmore : maxSendIovecSize < (w.sock.sendLists j).length :=
        Nat.not_le.mp (of_decide_eq_false hnull)
      have := batch_lt (positive j) hmore
      omega
  | writevAgain | writevError =>
    cases hnext
    trivial
  | quiet hq hq' =>
    cases hnext
    cases hq'
  | closing hq hq' =>
    cases hnext
    cases hq'
  | deliverList list next =>
    rcases next with rfl | ⟨-, rfl⟩
    · cases hnext
    · exact absurd hnext (after _ _)
  | recvFinish | restoreClear | restoreStale => exact absurd hnext (after _ _)
  | writtenOk last put =>
    obtain ⟨w', act, hflushed, -⟩ := flushed_goes _ _ _
    rw [hflushed] at hnext
    cases hnext
  | _ => cases hnext

theorem doStep_loaded {b : Build} {w : World} {io : Io} {pc : DoPc} {o : Outcome}
    (h : doStep b w io pc = some o) (loaded : pc.loaded w.sock)
    (positive : ∀ j, ∀ c ∈ w.sock.sendLists j, 0 < c.len) :
    ∀ q ∈ o.next, q.loaded o.world.sock := by
  intro q hq
  cases q with
  | deliver i cw cb hold n =>
    cases hold with
    | front buff => trivial
    | list j => exact received_loaded (doStep_received h) loaded hq
  | written i j ver io' total null => exact move_written (doStep_move h) positive hq
  | _ => trivial

theorem loaded_step {b : Build} {s s' : Sys} {a : Label} (reach : Reachable b s)
    (h : step b s a = some s')
    (inv : s.world.sock.closed = false → ∀ pc ∈ s.tasks, pc.loaded s.world.sock)
    (opened : s'.world.sock.closed = false) : ∀ pc ∈ s'.tasks, pc.loaded s'.world.sock := by
  have worker (k : ℕ) (io : Io) (ha : a = .worker k io) :
      ∀ pc ∈ s'.tasks, pc.loaded s'.world.sock := by
    subst ha
    obtain ⟨pc, o, at_, run, rfl⟩ := step_worker h
    have hopen := move_opened (doStep_move run) opened
    obtain ⟨hone, rfl⟩ := (reachable_oneWorker reach hopen).single at_
    have hpositive : ∀ j, ∀ c ∈ s.world.sock.sendLists j, 0 < c.len := by
      rcases reachable_unsent reach with hunsent | hlate
      · exact hunsent.positive
      · cases hopen.symm.trans hlate.closed
    intro q hq
    rw [resume_sole hone, Option.mem_toList] at hq
    exact doStep_loaded run (inv hopen pc (List.mem_of_getElem? at_)) hpositive q hq
  cases step_stepped h with
  | apiCall hsection =>
    intro pc hpc
    have hopen := (section_orderly hsection opened).opened
    exact loaded_grows (inv hopen pc hpc) (section_capacity hsection)
      (queued_totalBytes (section_queued hsection))
  | collect | disable => exact inv opened
  | @onActive event err =>
    intro pc hpc
    have hopen := (onActive_orderly opened).opened
    refine loaded_grows (inv hopen pc hpc) (fun j => ?_) fun j => ?_
    · have hsame := congrArg Incoming.recvLists (onActive_incoming s.world event err)
      exact Nat.le_of_eq (congrArg Scattered.capacity (congrFun hsame j).symm)
    · have hsame := congrArg Outgoing.sendLists (onActive_outgoing s.world event err)
      exact Nat.le_of_eq (congrArg totalBytes (congrFun hsame j).symm)
  | post =>
    intro pc hpc
    rcases List.mem_append.mp hpc with hpc | hpc
    · exact inv opened pc hpc
    · rw [List.mem_singleton.mp hpc]
      trivial
  | @worker k io => exact worker k io rfl

theorem reachable_loaded {b : Build} {s : Sys} (h : Reachable b s)
    (opened : s.world.sock.closed = false) : ∀ pc ∈ s.tasks, pc.loaded s.world.sock := by
  refine h.invariant (I := fun s => s.world.sock.closed = false →
    ∀ pc ∈ s.tasks, pc.loaded s.world.sock) ?_ ?_ opened
  · intro _ pc hpc
    cases hpc
  · intro u v a run inv _ hstep
    exact loaded_step run hstep inv

end Hwnet.TCPSocket
