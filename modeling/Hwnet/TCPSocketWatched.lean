import Hwnet.TCPSocketReadiness
import Hwnet.TCPSocketReceived
import Hwnet.TCPSocketTimeouts
import Hwnet.TCPSocketUnsent

set_option autoImplicit false

/-!
# Pending operations under a timeout

The timer is created where a list is seen with something on it. The worker empties a list for the
time of its system call; what it puts back is looked at by nobody.
-/
namespace Hwnet.TCPSocket

/-! ## The list that is not current -/

def Hold.shelf : Hold → Option (Fin 2)
  | .front _ => none
  | .list j => some j

def DoPc.shelf : DoPc → Option (Fin 2)
  | .read _ _ _ _ hold | .deliver _ _ _ hold _ | .recvFinish _ _ hold => hold.shelf
  | .readFailed _ _ _ hold _ => hold.shelf
  | _ => none

theorem DoPc.shelf_of_not_receives {pc : DoPc} (h : pc.receives = false) : pc.shelf = none := by
  cases pc <;> first | rfl | cases h

/-- The receive list that is not current is taken or empty, until a read fails. -/
structure Spare (i : Incoming) (error : Bool) (tasks : List DoPc) : Prop where
  held : ∀ pc ∈ tasks, ∀ j ∈ pc.shelf, j = flip i.rlistIdx
  empty : error = false → (∀ pc ∈ tasks, pc.shelf = none) → i.recvLists (flip i.rlistIdx) = []

theorem spare_free {i : Incoming} {error : Bool} {tasks : List DoPc}
    (free : ∀ pc ∈ tasks, pc.shelf = none)
    (empty : error = false → i.recvLists (flip i.rlistIdx) = []) : Spare i error tasks := by
  refine ⟨fun pc hpc j hj => ?_, fun fine _ => empty fine⟩
  rw [free pc hpc] at hj
  cases hj

theorem spare_taken {i : Incoming} {error : Bool} {q : DoPc} {j : Fin 2}
    (shelf : q.shelf = some j) (other : j = flip i.rlistIdx) :
    Spare i error (some q).toList := by
  refine ⟨fun pc hpc k hk => ?_, fun _ none => ?_⟩
  · rw [Option.toList_some, List.mem_singleton] at hpc
    rw [hpc, shelf] at hk
    cases hk
    exact other
  · have := none q (Option.mem_toList.mpr rfl)
    rw [shelf] at this
    cases this

theorem Spare.worker {w : World} {i' : Incoming} {error : Bool} {pc : DoPc} {next : Option DoPc}
    (inv : Spare w.incoming w.sock.socketError [pc]) (h : Received w pc i' next)
    (opened : w.sock.closed = false)
    (keep : error = false → w.sock.socketError = false)
    (fails : ∀ n cw ver hold errno, pc = .readFailed n cw ver hold (some errno) → error = true) :
    Spare i' error next.toList := by
  have hempty (free : pc.shelf = none) (fine : error = false) :
      w.sock.recvLists (flip w.sock.rlistIdx) = [] :=
    inv.empty (keep fine) fun q hq => by rw [List.mem_singleton.mp hq]; exact free
  have hheld (j : Fin 2) (taken : pc.shelf = some j) : j = flip w.sock.rlistIdx :=
    inv.held pc (List.mem_singleton.mpr rfl) j taken
  have one {q : DoPc} (free : q.shelf = none) : ∀ pc ∈ (some q).toList, pc.shelf = none := by
    intro pc hpc
    rw [Option.toList_some, List.mem_singleton] at hpc
    rw [hpc]
    exact free
  have after (n : ℕ) (cw : Bool) : (afterRecv n cw).shelf = none :=
    DoPc.shelf_of_not_receives (afterRecv_not_receives n cw)
  cases h with
  | apart h h' =>
    refine spare_free (fun q hq => ?_) (hempty (DoPc.shelf_of_not_receives h))
    exact DoPc.shelf_of_not_receives (h' q (Option.mem_toList.mp hq))
  | takeFront =>
    refine spare_free (one rfl) fun fine => ?_
    exact (Function.update_of_ne (flip_ne _) _ _).trans (hempty rfl fine)
  | takeList => exact spare_taken rfl (flip_flip _).symm
  | @read n cw cb ver hold =>
    cases hold with
    | front => exact spare_free (one rfl) (hempty rfl)
    | list j => exact spare_taken rfl (hheld j rfl)
  | @readFails n cw cb ver hold =>
    cases hold with
    | front => exact spare_free (one rfl) (hempty rfl)
    | list j => exact spare_taken rfl (hheld j rfl)
  | @deliverFront n m cw cb =>
    refine spare_free (one rfl) fun fine => ?_
    cases cb <;> exact hempty rfl fine
  | @deliverList n m cw cb j =>
    refine spare_taken (j := j) rfl ?_
    cases cb <;> exact hheld j rfl
  | deliverClosed closed => cases opened.symm.trans closed
  | @deliverEnd n cw cb j => exact spare_taken rfl (hheld j rfl)
  | @finish n cw hold =>
    cases hold with
    | front => exact spare_free (one (after n cw)) (hempty rfl)
    | list j =>
      refine spare_free (one (after n cw)) fun _ => ?_
      rw [hheld j rfl]
      exact (putBack_recvLists w.incoming).2
  | @restore n cw ver hold =>
    cases hold with
    | front =>
      refine spare_free (one (after n cw)) fun fine => ?_
      exact (Function.update_of_ne (flip_ne _) _ _).trans (hempty rfl fine)
    | list j =>
      refine spare_free (one (after n cw)) fun _ => ?_
      rw [hheld j rfl]
      exact (putBack_recvLists w.incoming).2
  | @failed n cw ver hold errno =>
    refine spare_free (one rfl) fun fine => ?_
    cases fine.symm.trans (fails n cw ver hold errno rfl)

theorem Spare.same {i i' : Incoming} {error error' : Bool} {tasks : List DoPc}
    (inv : Spare i error tasks) (idx : i'.rlistIdx = i.rlistIdx)
    (other : i'.recvLists (flip i.rlistIdx) = i.recvLists (flip i.rlistIdx))
    (keep : error' = false → error = false) : Spare i' error' tasks := by
  refine ⟨fun pc hpc j hj => ?_, fun fine free => ?_⟩
  · rw [idx]
    exact inv.held pc hpc j hj
  · rw [idx, other]
    exact inv.empty (keep fine) free

theorem spare_step {b : Build} {s s' : Sys} {a : Label} (h : step b s a = some s')
    (one : s.world.sock.closed = false → OneWorker s)
    (inv : s.world.sock.closed = false →
      Spare s.world.incoming s.world.sock.socketError s.tasks)
    (opened : s'.world.sock.closed = false) :
    Spare s'.world.incoming s'.world.sock.socketError s'.tasks := by
  cases step_stepped h with
  | @apiCall a r hsection =>
    have hinv := inv (section_orderly hsection opened).opened
    have herror : r.1.sock.socketError = s.world.sock.socketError :=
      (section_change hsection opened).socketError
    have keep (fine : r.1.sock.socketError = false) : s.world.sock.socketError = false :=
      herror ▸ fine
    rcases section_incoming hsection with hsame | ⟨buff, pos, hpost⟩
    · exact hinv.same (congrArg Incoming.rlistIdx hsame)
        (congrArg (fun i => i.recvLists (flip s.world.sock.rlistIdx)) hsame) keep
    · refine hinv.same ((congrArg Incoming.rlistIdx hpost).trans rfl) ?_ keep
      refine (congrArg (fun i => i.recvLists (flip s.world.sock.rlistIdx)) hpost).trans ?_
      exact Function.update_of_ne (flip_ne _) _ _
  | collect event idle => exact inv opened
  | disable entered => exact inv opened
  | @onActive event err locking =>
    have hsame := onActive_incoming s.world event err
    refine (inv (onActive_orderly opened).opened).same (congrArg Incoming.rlistIdx hsame)
      (congrArg (fun i => i.recvLists (flip s.world.sock.rlistIdx)) hsame) fun fine => ?_
    cases herror : s.world.sock.socketError with
    | false => rfl
    | true => cases fine.symm.trans ((onActive_aside s.world event err).error herror)
  | post pos =>
    have hinv := inv opened
    refine ⟨fun pc hpc j hj => ?_, fun fine free => hinv.empty fine fun pc hpc => ?_⟩
    · rcases List.mem_append.mp hpc with hpc | hpc
      · exact hinv.held pc hpc j hj
      · rw [List.mem_singleton.mp hpc] at hj
        cases hj
    · exact free pc (List.mem_append_left _ hpc)
  | @worker k io _ _ _ _ =>
    obtain ⟨pc, o, at_, hdo, hs⟩ := step_worker h
    rw [hs] at opened ⊢
    have ho : s.world.sock.closed = false := move_opened (doStep_move hdo) opened
    obtain ⟨hone, hk⟩ := (one ho).single at_
    have hinv := inv ho
    rw [hone] at hinv
    have keep (fine : o.world.sock.socketError = false) : s.world.sock.socketError = false :=
      (move_turn (doStep_move hdo) opened).socketError fine
    have := hinv.worker (doStep_received hdo) ho keep fun n cw ver hold errno hpc => by
      subst hpc
      cases hdo
      rfl
    cases hn : o.next <;> simpa [Sys.resume, hone, hk, hn] using this

theorem reachable_spare {b : Build} {s : Sys} (h : Reachable b s)
    (opened : s.world.sock.closed = false) :
    Spare s.world.incoming s.world.sock.socketError s.tasks := by
  refine h.invariant (I := fun s => s.world.sock.closed = false →
    Spare s.world.incoming s.world.sock.socketError s.tasks) ?_ ?_ opened
  · exact fun _ => spare_free (fun pc hpc => by cases hpc) fun _ => rfl
  · intro u v a run inv _ hstep
    exact spare_step hstep (reachable_oneWorker run) inv

theorem spare_send {s : Sys} {k i : ℕ} (inv : Unsent s ∨ Late s) (one : OneWorker s)
    (at_ : s.tasks[k]? = some (.sendInWorker i)) (can : s.world.sock.canWrite = true) :
    s.world.sock.sendLists (flip s.world.sock.slistIdx) = [] := by
  obtain ⟨-, hopen, hnone⟩ := canWrite_open can
  have htasks := (one.single at_).1
  have free : ∀ pc ∈ s.tasks, pc.sends = false := by
    intro pc hpc
    rw [htasks, List.mem_singleton] at hpc
    rw [hpc]
    rfl
  rcases inv with inv | late
  · cases hfail : s.world.outgoing.failed with
    | false => exact ((stream_iff_rest free).mp (inv.fine hfail)).idle
    | true =>
      rcases (inv.broken hfail).stopped with h | h | ⟨pc, hpc, hs⟩
      · cases hnone.symm.trans h
      · cases hopen.symm.trans h
      · cases (free pc hpc).symm.trans hs
  · cases hopen.symm.trans late.closed

/-! ## What is put back -/

def DoPc.putsBackOn (w : World) : DoPc → Option Side
  | .written _ j _ .again _ _ => if w.sock.sendLists j = [] then none else some .send
  | .written _ _ _ (.ok n) total null =>
    if 0 < n ∧ (n < total ∨ null = false) then some .send else none
  | .recvFinish _ _ (.list j) => if w.sock.recvLists j = [] then none else some .recv
  | .readFailed _ _ _ hold none => if hold.buffers w.sock = [] then none else some .recv
  | _ => none

theorem queued_send_iff (w : World) : w.queued .send = true ↔ w.sock.ptrSendlist ≠ [] := by
  simp [World.queued, World.filled, World.current, ptrSendlist]

theorem queued_recv_iff (w : World) : w.queued .recv = true ↔ w.sock.recvList ≠ [] := by
  simp [World.queued, World.filled, World.current, recvList]

theorem addFront_nonempty {s : TCPSocket} {j : Fin 2} (h : (s.addFront j).ptrSendlist ≠ []) :
    s.ptrSendlist ≠ [] ∨ s.sendLists j ≠ [] := by
  by_cases hcur : s.ptrSendlist = []
  · by_cases hother : s.sendLists j = []
    · refine absurd ?_ h
      by_cases hj : s.slistIdx = j
      · simp [addFront, setSendList, ptrSendlist, hj]
      · rw [ptrSendlist] at hcur
        simp [addFront, setSendList, ptrSendlist, Function.update_of_ne hj, hother, hcur]
    · exact .inr hother
  · exact .inl hcur

/-- The send list becomes nonempty by the hands of the worker only where it is put back. -/
theorem move_queued_send {w : World} {pc : DoPc} {o : Outcome} (h : Move w pc o)
    (spare : ∀ i, pc = .sendInWorker i → w.sock.canWrite = true →
      w.sock.sendLists (flip w.sock.slistIdx) = [])
    (queued : o.world.sock.ptrSendlist ≠ []) :
    w.sock.ptrSendlist ≠ [] ∨ pc.putsBackOn w = some .send := by
  cases h with
  | quiet _ _ h =>
    obtain ⟨t, hs⟩ := h.sock
    simp only [goto, hs] at queued
    exact .inl queued
  | idle _ h =>
    obtain ⟨t, hs⟩ := h.sock
    simp only [hs] at queued
    exact .inl queued
  | leave _ h =>
    obtain ⟨t, hs⟩ := h.sock
    simp only [goto, hs] at queued
    exact .inl queued
  | deliverFront =>
    simp only [goto, noteReceived_sock] at queued
    exact .inl queued
  | deliverList =>
    simp only [goto, noteReceived_sock] at queued
    exact .inl queued
  | @recvFinish i cw hold last =>
    obtain ⟨lists, hl⟩ := hold.finish_frame { w.sock with lastRecvTime := last }
    simp only [goto, hl] at queued
    exact .inl queued
  | @restoreClear i cw ver hold | @restoreStale i cw ver hold =>
    obtain ⟨lists, hl⟩ := hold.restore_frame w.sock
    simp only [goto, hl] at queued
    exact .inl queued
  | closing =>
    obtain ⟨hlists, hidx⟩ : (close w).1.sock.sendLists = w.sock.sendLists ∧
        (close w).1.sock.slistIdx = w.sock.slistIdx :=
      ⟨congrArg Outgoing.sendLists (close_outgoing w),
        congrArg Outgoing.slistIdx (close_outgoing w)⟩
    rw [ptrSendlist, hlists, hidx] at queued
    exact .inl queued
  | sendTake can => exact absurd (spare _ rfl can) queued
  | @writevAll i n j ver =>
    left
    intro hnil
    refine queued ?_
    by_cases hj : w.sock.slistIdx = j
    · simp [goto, World.note, ptrSendlist, setSendList, hj]
    · rw [ptrSendlist] at hnil
      simp [goto, World.note, ptrSendlist, setSendList, Function.update_of_ne hj, hnil]
  | @writtenOk i n total j ver null last s' put =>
    obtain ⟨l, act, hf, -⟩ := flushed_eq _ _ _
    rw [hf] at queued
    unfold putBackSend at put
    split at put
    · rename_i back
      exact .inr (if_pos back)
    · cases put
      exact .inl queued
  | @writtenClear i total j ver null =>
    have hsame : ({ w.sock.addFront j with writeable := false } : TCPSocket).ptrSendlist =
        (w.sock.addFront j).ptrSendlist := rfl
    rw [goto, hsame] at queued
    exact (addFront_nonempty queued).imp_right fun hother => if_neg hother
  | @writtenStale i total j ver null =>
    exact (addFront_nonempty queued).imp_right fun hother => if_neg hother
  | doClose => exact absurd (by simp [goto, ptrSendlist, setSendList]; grind) queued
  | _ => exact .inl queued

theorem putBack_nonempty {i : Incoming} {j : Fin 2}
    (h : (i.putBack j).recvLists i.rlistIdx ≠ []) :
    i.recvLists i.rlistIdx ≠ [] ∨ i.recvLists j ≠ [] := by
  by_cases hcur : i.recvLists i.rlistIdx = []
  · by_cases hother : i.recvLists j = []
    · refine absurd ?_ h
      by_cases hj : i.rlistIdx = j
      · simp [Incoming.putBack, Incoming.setRecvList, hj]
      · simp [Incoming.putBack, Incoming.setRecvList, Function.update_of_ne hj, hother, hcur]
    · exact .inr hother
  · exact .inl hcur

theorem received_queued {w : World} {i' : Incoming} {pc : DoPc} {next : Option DoPc}
    (h : Received w pc i' next) (opened : w.sock.closed = false)
    (spare : ∀ n cw, pc = .recvInWorker n cw → w.sock.socketError = false →
      w.sock.recvLists (flip w.sock.rlistIdx) = [])
    (queued : i'.recvLists i'.rlistIdx ≠ []) :
    w.sock.recvList ≠ [] ∨ pc.putsBackOn w = some .recv := by
  cases h with
  | takeFront fine list => exact .inl (by rw [list]; exact List.cons_ne_nil _ _)
  | @takeList n cw ver fine => exact absurd (spare n cw rfl fine) queued
  | @deliverFront n m cw cb =>
    left
    cases cb <;> exact queued
  | @deliverList n m cw cb j front rest more list =>
    left
    intro hnil
    have hlists : (w.incoming.setRecvList j rest).recvLists w.sock.rlistIdx ≠ [] := by
      cases cb <;> exact queued
    by_cases hj : w.sock.rlistIdx = j
    · rw [recvList, hj, list] at hnil
      cases hnil
    · exact hlists ((Function.update_of_ne hj _ _).trans hnil)
  | deliverClosed closed => cases opened.symm.trans closed
  | @finish n cw hold =>
    cases hold with
    | front => exact .inl queued
    | list j => exact (putBack_nonempty queued).imp_right fun hother => if_neg hother
  | @restore n cw ver hold =>
    cases hold with
    | front buff => exact .inr (by simp [DoPc.putsBackOn, Hold.buffers])
    | list j => exact (putBack_nonempty queued).imp_right fun hother => if_neg hother
  | _ => exact .inl queued

/-! ## The timer is kept -/

structure Issued (w : World) : Prop where
  timer : ∀ t ∈ w.sock.timer, t < w.timers ∧ t ∉ w.canceled
  canceled : ∀ t ∈ w.canceled, t < w.timers
  closures : ∀ t ∈ w.sock.closures, t < w.timers

theorem Issued.still {w w' : World} (inv : Issued w) (h : Still w w') : Issued w' := by
  refine ⟨fun t ht => ?_, fun t ht => ?_, fun t ht => ?_⟩
  · rw [h.timer] at ht
    rw [h.timers, h.canceled]
    exact inv.timer t ht
  · rw [h.canceled] at ht
    rw [h.timers]
    exact inv.canceled t ht
  · rw [congrArg Timeouts.closures h.timeouts] at ht
    rw [h.timers]
    exact inv.closures t ht

theorem Issued.pushed {w w' : World} {side : Side} (inv : Issued w) (h : Pushed side w w') :
    Issued w' := by
  refine ⟨?_, ?_, ?_⟩
  · rw [congrArg Timeouts.timer h.timeouts, h.timers, h.canceled]
    exact inv.timer
  · rw [h.timers, h.canceled]
    exact inv.canceled
  · rw [congrArg Timeouts.closures h.timeouts, h.timers]
    exact inv.closures

theorem Issued.setTimeout {w : World} (inv : Issued w) (timeout : UInt64) (cb : Option Callback)
    (side : Side) : Issued (w.setTimeout timeout cb side) := by
  cases side <;> exact ⟨inv.timer, inv.canceled, inv.closures⟩

theorem Issued.addSocketTimer {w : World} (inv : Issued w) (side : Side) :
    Issued (w.setLast w.now side).addSocketTimer := by
  have canceled : ∀ t ∈ w.canceled, t < w.timers + 1 :=
    fun t ht => Nat.lt_succ_of_lt (inv.canceled t ht)
  have closures : ∀ t ∈ w.sock.closures, t < w.timers + 1 :=
    fun t ht => Nat.lt_succ_of_lt (inv.closures t ht)
  have fresh : ∀ t ∈ some w.timers, t < w.timers + 1 ∧ t ∉ w.canceled := by
    intro t ht
    cases ht
    exact ⟨Nat.lt_succ_self _, fun h => absurd (inv.canceled _ h) (Nat.lt_irrefl _)⟩
  cases side <;> exact ⟨fresh, canceled, closures⟩

theorem Issued.register {w : World} (inv : Issued w) (side : Side) : Issued (w.register side) := by
  rw [World.register_eq]
  split
  · exact inv.addSocketTimer side
  · exact inv

theorem Issued.watch {w : World} (inv : Issued w) (side : Side) : Issued (w.watch side) := by
  unfold World.watch
  split
  · exact inv.register side
  · exact inv

theorem Issued.cancelTimer {w : World} (inv : Issued w) : Issued (cancelTimer w) := by
  unfold TCPSocket.cancelTimer
  split
  · rename_i t timer
    refine ⟨fun u hu => (by cases hu), fun u hu => ?_, inv.closures⟩
    rcases List.mem_cons.mp hu with rfl | hu
    · exact (inv.timer u timer).1
    · exact inv.canceled u hu
  · exact inv

theorem Issued.setTimeoutCallback {w : World} (inv : Issued w) (timeout : UInt64)
    (cb : Option Callback) (side : Side) : Issued (w.setTimeoutCallback timeout cb side) := by
  rw [World.setTimeoutCallback_eq]
  split_ifs
  · exact inv
  · exact (inv.setTimeout timeout cb side).register side
  · exact (inv.setTimeout 0 none side).cancelTimer
  · exact inv.setTimeout 0 none side

theorem Issued.close {w : World} (inv : Issued w) : Issued (close w).1 := by
  unfold TCPSocket.close
  split
  · exact inv
  · obtain ⟨timer, canceled, closures⟩ := inv.cancelTimer
    exact ⟨timer, canceled, closures⟩

theorem Issued.evaluate {w : World} (inv : Issued w) (i : ℕ) : Issued (evaluate w i).world := by
  have h := evaluate_evaluated w i
  generalize TCPSocket.evaluate w i = o at h
  cases h with
  | close => exact inv
  | idle => exact ⟨inv.timer, inv.canceled, inv.closures⟩
  | work => exact inv

theorem Issued.locked {w : World} {i : ℕ} {ts : List TimerId} {o : Outcome} (inv : Issued w)
    (h : Locked w i ts o) (bound : ∀ t ∈ ts, t < w.timers) :
    Issued o.world ∧ ∀ q ∈ o.next, ∀ t ∈ q.runs, t < o.world.timers := by
  have evaluated {w' : World} (inv' : Issued w') : Issued (TCPSocket.evaluate w' i).world ∧
      ∀ q ∈ (TCPSocket.evaluate w' i).next, ∀ t ∈ q.runs,
        t < (TCPSocket.evaluate w' i).world.timers := by
    refine ⟨inv'.evaluate i, fun q hq t ht => ?_⟩
    have h := evaluate_evaluated w' i
    generalize TCPSocket.evaluate w' i = o at h hq
    cases h <;> cases hq <;> cases ht
  cases h with
  | claimSend known =>
    refine ⟨⟨inv.timer, inv.canceled, inv.closures⟩, fun q hq t ht => ?_⟩
    cases hq
    rw [List.mem_singleton.mp ht]
    exact bound _ known
  | claimRecv known =>
    refine ⟨⟨inv.timer, inv.canceled, inv.closures⟩, fun q hq t ht => ?_⟩
    cases hq
    rw [List.mem_singleton.mp ht]
    exact bound _ known
  | release known =>
    refine evaluated ⟨fun t ht => (by cases ht), fun t ht => ?_, inv.closures⟩
    rcases List.mem_cons.mp ht with rfl | ht
    · exact bound _ known
    · exact inv.canceled t ht
  | keep => exact evaluated inv

theorem Issued.touched {w : World} {pc : DoPc} {o : Outcome} (inv : Issued w)
    (h : Touched w pc o) : Issued o.world := by
  have timer : o.world.sock.timer = w.sock.timer := by
    refine (congrArg Timeouts.timer h.timeouts).trans ?_
    unfold DoPc.touched
    split <;> rfl
  have closures : o.world.sock.closures = w.sock.closures := by
    refine (congrArg Timeouts.closures h.timeouts).trans ?_
    unfold DoPc.touched
    split <;> rfl
  refine ⟨fun t ht => ?_, fun t ht => ?_, fun t ht => ?_⟩
  · rw [timer] at ht
    rw [h.timers, h.canceled]
    exact inv.timer t ht
  · rw [h.canceled] at ht
    rw [h.timers]
    exact inv.canceled t ht
  · rw [closures] at ht
    rw [h.timers]
    exact inv.closures t ht

theorem register_timers (w : World) (side : Side) : w.timers ≤ (w.register side).timers := by
  rw [World.register_eq]
  split
  · cases side <;> exact Nat.le_succ _
  · exact Nat.le_refl _

theorem watch_timers (w : World) (side : Side) : w.timers ≤ (w.watch side).timers := by
  unfold World.watch
  split
  · exact register_timers w side
  · exact Nat.le_refl _

theorem cancelTimer_timers (w : World) : (cancelTimer w).timers = w.timers := by
  unfold cancelTimer
  split <;> rfl

theorem setTimeout_timers (w : World) (timeout : UInt64) (cb : Option Callback) (side : Side) :
    (w.setTimeout timeout cb side).timers = w.timers := by
  cases side <;> rfl

theorem setTimeoutCallback_timers (w : World) (timeout : UInt64) (cb : Option Callback)
    (side : Side) : w.timers ≤ (w.setTimeoutCallback timeout cb side).timers := by
  rw [World.setTimeoutCallback_eq]
  split_ifs
  · exact Nat.le_refl _
  · rw [← setTimeout_timers w timeout cb side]
    exact register_timers _ side
  · exact Nat.le_of_eq (by rw [cancelTimer_timers, setTimeout_timers])
  · exact Nat.le_of_eq (by rw [setTimeout_timers])

theorem close_timers (w : World) : (close w).1.timers = w.timers := by
  unfold close
  split
  · rfl
  · exact cancelTimer_timers w

theorem locked_timers {w : World} {i : ℕ} {ts : List TimerId} {o : Outcome}
    (h : Locked w i ts o) : o.world.timers = w.timers := by
  have evaluated (w' : World) : (evaluate w' i).world.timers = w'.timers := by
    have h := evaluate_evaluated w' i
    generalize evaluate w' i = o at h
    cases h <;> rfl
  cases h with
  | claimSend | claimRecv => rfl
  | release => exact evaluated _
  | keep => exact evaluated w

structure AllIssued (s : Sys) : Prop where
  world : Issued s.world
  tasks : ∀ pc ∈ s.tasks, ∀ t ∈ pc.runs, t < s.world.timers

theorem AllIssued.caller {s s' : Sys} (inv : AllIssued s) (world : Issued s'.world)
    (timers : s.world.timers ≤ s'.world.timers)
    (tasks : ∃ n, s'.tasks = s.tasks ++ List.replicate n .queued) : AllIssued s' := by
  refine ⟨world, fun pc hpc t ht => ?_⟩
  obtain ⟨n, hn⟩ := tasks
  rw [hn] at hpc
  rcases List.mem_append.mp hpc with hpc | hpc
  · exact Nat.lt_of_lt_of_le (inv.tasks pc hpc t ht) timers
  · rw [List.eq_of_mem_replicate hpc] at ht
    cases ht

theorem AllIssued.resume {s : Sys} {k : ℕ} {o : Outcome} (inv : AllIssued s)
    (world : Issued o.world) (timers : s.world.timers ≤ o.world.timers)
    (next : ∀ q ∈ o.next, ∀ t ∈ q.runs, t < o.world.timers) : AllIssued (s.resume k o) := by
  refine ⟨world, fun pc hpc t ht => ?_⟩
  rcases of_mem_resume hpc with hpc | hpc
  · exact Nat.lt_of_lt_of_le (inv.tasks pc hpc t ht) timers
  · exact next pc hpc t ht

theorem allIssued_step {b : Build} {s s' : Sys} {a : Label} (h : Clocked b s a s')
    (inv : AllIssued s) : AllIssued s' := by
  have none : ∃ n, s.tasks = s.tasks ++ List.replicate n .queued := ⟨0, (List.append_nil _).symm⟩
  have world := inv.world
  cases h with
  | still _ hstill tasks =>
    exact inv.caller (world.still hstill) (Nat.le_of_eq hstill.timers.symm) tasks
  | tick d => exact inv.caller ⟨world.timer, world.canceled, world.closures⟩ (Nat.le_refl _) none
  | @fired t added =>
    refine inv.caller ?_ (Nat.le_of_eq ?_) none
    · show Issued (onTimer s.world t).1
      rw [onTimer_world]
      refine ⟨world.timer, world.canceled, fun u hu => ?_⟩
      rcases List.mem_append.mp hu with hu | hu
      · exact world.closures u hu
      · rw [List.eq_of_mem_replicate hu]
        exact added
    · show s.world.timers = (onTimer s.world t).1.timers
      rw [onTimer_world]
  | set side =>
    exact inv.caller (world.setTimeoutCallback _ _ side) (setTimeoutCallback_timers _ _ _ side) none
  | pushed side _ _ push hstill tasks =>
    refine inv.caller (((world.pushed push).watch side).still hstill) ?_
      ⟨0, by rw [tasks, List.replicate, List.append_nil]⟩
    rw [hstill.timers, ← push.timers]
    exact watch_timers _ side
  | closed opened hs =>
    subst hs
    exact inv.caller world.close (Nat.le_of_eq (close_timers _).symm) none
  | @worker k io pc o at_ run =>
    have hpc := inv.tasks pc (List.mem_of_getElem? at_)
    cases pass : pc.passes with
    | some i =>
      have entered : Issued (pc.entered s.world) ∧
          (pc.entered s.world).timers = s.world.timers := by
        cases pc with
        | lock =>
          exact ⟨⟨world.timer, world.canceled,
            fun t ht => world.closures t (List.mem_of_mem_tail ht)⟩, rfl⟩
        | _ => exact ⟨world, rfl⟩
      have bound : ∀ t ∈ pc.bound s.world, t < (pc.entered s.world).timers := by
        rw [entered.2]
        cases pc with
        | lock => exact world.closures
        | sendTimeout | recvTimeout => exact hpc
        | _ => exact fun t ht => (by cases ht)
      have hlocked := doStep_locked run pass
      obtain ⟨hworld, hnext⟩ := entered.1.locked hlocked bound
      refine inv.resume hworld (Nat.le_of_eq ?_) hnext
      exact entered.2.symm.trans (locked_timers hlocked).symm
    | none =>
      rcases doStep_touched run pass with htouched | ⟨pc', hfree, -, rfl⟩
      · refine inv.resume (world.touched htouched) (Nat.le_of_eq htouched.timers.symm) ?_
        intro q hq t ht
        rw [(htouched.next q hq).1] at ht
        cases ht
      · refine inv.resume world.close (Nat.le_of_eq (close_timers _).symm) fun q hq t ht => ?_
        cases hq
        rw [hfree] at ht
        cases ht

theorem reachable_issued {b : Build} {s : Sys} (h : Reachable b s) : Issued s.world := by
  have inv : AllIssued s := by
    refine h.invariant ⟨⟨?_, ?_, ?_⟩, ?_⟩ fun u v a run inv _ hstep =>
      allIssued_step (step_clocked hstep) inv
    · exact fun t ht => by cases ht
    · exact fun t ht => by cases ht
    · exact fun t ht => by cases ht
    · exact fun pc hpc => by cases hpc
  exact inv.world

/-! ## What is pending has a timer -/

def Watching (w : World) : Prop :=
  ∀ side, 0 < w.timeout side → w.queued side = true → w.sock.timer.isSome = true

theorem Watching.still {w w' : World} (inv : Watching w) (h : Still w w') : Watching w' := by
  intro side on queued
  rw [h.timeout] at on
  rw [h.queued] at queued
  rw [h.timer]
  exact inv side on queued

theorem register_watching {w : World} {side : Side}
    (others : ∀ side', side' ≠ side → 0 < w.timeout side' → w.queued side' = true →
      w.sock.timer.isSome = true) : Watching (w.register side) := by
  rw [World.register_eq]
  split
  · intro side' _ _
    cases side <;> rfl
  · rename_i idle
    intro side' on queued
    by_cases hside : side' = side
    · rw [hside] at queued
      exact Option.isSome_iff_ne_none.mpr (by simpa [queued] using idle)
    · exact others side' hside on queued

theorem setTimeout_other (w : World) (timeout : UInt64) (cb : Option Callback) {side side' : Side}
    (ne : side' ≠ side) : (w.setTimeout timeout cb side).timeout side' = w.timeout side' := by
  cases side <;> cases side' <;> first | rfl | exact absurd rfl ne

theorem setTimeout_self (w : World) (timeout : UInt64) (cb : Option Callback) (side : Side) :
    (w.setTimeout timeout cb side).timeout side = timeout := by
  cases side <;> rfl

theorem setTimeout_queued (w : World) (timeout : UInt64) (cb : Option Callback)
    (side side' : Side) : (w.setTimeout timeout cb side).queued side' = w.queued side' := by
  cases side <;> cases side' <;> rfl

theorem setTimeout_timer (w : World) (timeout : UInt64) (cb : Option Callback) (side : Side) :
    (w.setTimeout timeout cb side).sock.timer = w.sock.timer := by
  cases side <;> rfl

theorem cancelTimer_timeout (w : World) : (cancelTimer w).timeout = w.timeout := by
  unfold cancelTimer
  split
  · funext side
    cases side <;> rfl
  · rfl

theorem Watching.set {w : World} (inv : Watching w) (timeout : UInt64) (cb : Option Callback)
    (side : Side) : Watching (w.setTimeoutCallback timeout cb side) := by
  have off (side' : Side) (ne : side' ≠ side)
      (on : 0 < (w.setTimeout 0 none side).timeout side')
      (queued : (w.setTimeout 0 none side).queued side' = true) :
      (w.setTimeout 0 none side).sock.timer.isSome = true := by
    rw [setTimeout_other _ _ _ ne] at on
    rw [setTimeout_queued] at queued
    rw [setTimeout_timer]
    exact inv side' on queued
  have zero : ¬ (0 : UInt64) < 0 := by decide
  rw [World.setTimeoutCallback_eq]
  split_ifs with closed on other
  · exact inv
  · refine register_watching fun side' ne on queued => ?_
    rw [setTimeout_other _ _ _ ne] at on
    rw [setTimeout_queued] at queued
    rw [setTimeout_timer]
    exact inv side' on queued
  · intro side' on queued
    rw [cancelTimer_timeout] at on
    by_cases hside : side' = side
    · rw [hside, setTimeout_self] at on
      exact absurd on zero
    · rw [setTimeout_other _ _ _ hside, Side.eq_other hside, other] at on
      exact absurd on zero
  · intro side' on queued
    by_cases hside : side' = side
    · rw [hside, setTimeout_self] at on
      exact absurd on zero
    · exact off side' hside on queued

theorem Pushed.timeout {side : Side} {w w' : World} (h : Pushed side w w') :
    w'.timeout = w.timeout := by
  funext side'
  cases side'
  · exact congrArg Timeouts.sendTimeout h.timeouts
  · exact congrArg Timeouts.recvTimeout h.timeouts

theorem Pushed.queued_other {side side' : Side} {w w' : World} (h : Pushed side w w')
    (ne : side' ≠ side) : w'.queued side' = w.queued side' := by
  rw [World.queued, World.queued, h.current]
  exact h.filled side' _ (.inl ne)

theorem Watching.pushed {w w' : World} {side : Side} (inv : Watching w) (h : Pushed side w w') :
    Watching (w'.watch side) := by
  have others (side' : Side) (ne : side' ≠ side) (on : 0 < w'.timeout side')
      (queued : w'.queued side' = true) : w'.sock.timer.isSome = true := by
    rw [h.timeout] at on
    rw [h.queued_other ne] at queued
    rw [congrArg Timeouts.timer h.timeouts]
    exact inv side' on queued
  unfold World.watch
  split
  · exact register_watching others
  · rename_i off
    intro side' on queued
    by_cases hside : side' = side
    · rw [hside] at on
      exact absurd on off
    · exact others side' hside on queued

theorem Watching.locked {w : World} {i : ℕ} {ts : List TimerId} {o : Outcome} (inv : Watching w)
    (h : Locked w i ts o) : Watching o.world := by
  have evaluated {w' : World} (inv' : Watching w') : Watching (evaluate w' i).world := by
    have h := evaluate_evaluated w' i
    generalize evaluate w' i = o at h
    cases h with
    | close | work => exact inv'
    | idle =>
      intro side on queued
      refine inv' side ?_ ?_
      · cases side <;> exact on
      · cases side <;> exact queued
  have zero : ¬ (0 : UInt64) < 0 := by decide
  cases h with
  | claimSend =>
    intro side on queued
    cases side with
    | send => exact absurd on zero
    | recv => exact inv .recv on queued
  | claimRecv =>
    intro side on queued
    cases side with
    | send => exact inv .send on queued
    | recv => exact absurd on zero
  | release known sendOff recvOff =>
    refine evaluated fun side on queued => ?_
    cases side with
    | send => exact absurd (show 0 < w.sock.sendTimeout from on) (by rw [sendOff]; exact zero)
    | recv => exact absurd (show 0 < w.sock.recvTimeout from on) (by rw [recvOff]; exact zero)
  | keep => exact evaluated inv

theorem touched_timeout (w : World) (pc : DoPc) :
    (pc.touched w).sendTimeout = w.sock.sendTimeout ∧
      (pc.touched w).recvTimeout = w.sock.recvTimeout ∧ (pc.touched w).timer = w.sock.timer := by
  unfold DoPc.touched
  split <;> exact ⟨rfl, rfl, rfl⟩

theorem Touched.timeout {w : World} {pc : DoPc} {o : Outcome} (h : Touched w pc o) :
    o.world.timeout = w.timeout := by
  funext side
  cases side
  · exact (congrArg Timeouts.sendTimeout h.timeouts).trans (touched_timeout w pc).1
  · exact (congrArg Timeouts.recvTimeout h.timeouts).trans (touched_timeout w pc).2.1

theorem Touched.timer {w : World} {pc : DoPc} {o : Outcome} (h : Touched w pc o) :
    o.world.sock.timer = w.sock.timer :=
  (congrArg Timeouts.timer h.timeouts).trans (touched_timeout w pc).2.2

/-- A worker puts something back on a list whose timeout is on, and the socket has no timer. -/
def putsBackUnwatched (s : Sys) : Label → Bool
  | .worker k _ =>
    match s.tasks[k]? with
    | some pc => (pc.putsBackOn s.world).any fun side =>
        decide (0 < s.world.timeout side) && s.world.sock.timer.isNone
    | none => false
  | _ => false

/-- Outside its passes a worker step leaves nothing pending that was not, unless it puts back. -/
theorem worker_queued {b : Build} {s : Sys} {k : ℕ} {io : Io} {pc : DoPc} {o : Outcome}
    (reach : Reachable b s) (at_ : s.tasks[k]? = some pc) (run : doStep b s.world io pc = some o)
    (opened : s.world.sock.closed = false) {side : Side} (queued : o.world.queued side = true) :
    s.world.queued side = true ∨ pc.putsBackOn s.world = some side := by
  have one := reachable_oneWorker reach opened
  cases side with
  | send =>
    rw [queued_send_iff] at queued ⊢
    refine move_queued_send (doStep_move run) (fun i hpc can => ?_) queued
    subst hpc
    exact spare_send (reachable_unsent reach) one at_ can
  | recv =>
    rw [queued_recv_iff] at queued ⊢
    refine received_queued (doStep_received run) opened (fun n cw hpc fine => ?_) queued
    refine (reachable_spare reach opened).empty fine fun q hq => ?_
    rw [(one.single at_).1, List.mem_singleton] at hq
    rw [hq, hpc]
    rfl

theorem watching_step {b : Build} {s s' : Sys} {a : Label} (reach : Reachable b s)
    (h : Clocked b s a s') (inv : s.world.sock.closed = false → Watching s.world)
    (watched : putsBackUnwatched s a = false) (opened : s'.world.sock.closed = false) :
    Watching s'.world := by
  cases h with
  | still _ hstill => exact (inv (hstill.closed.symm.trans opened)).still hstill
  | tick d =>
    intro side on queued
    refine inv opened side ?_ ?_
    · cases side <;> exact on
    · cases side <;> exact queued
  | @fired t added =>
    have hworld : (s.unlock (onTimer s.world t)).world = (onTimer s.world t).1 := rfl
    rw [hworld, onTimer_world] at opened ⊢
    intro side on queued
    refine inv opened side ?_ ?_
    · cases side <;> exact on
    · cases side <;> exact queued
  | @set side timeout cb =>
    cases hc : s.world.sock.closed with
    | false => exact (inv hc).set timeout cb side
    | true =>
      have hsame : s.world.setTimeoutCallback timeout cb side = s.world := by
        rw [World.setTimeoutCallback_eq, if_pos hc]
      simp only [Sys.lift, hsame] at opened
      cases hc.symm.trans opened
  | pushed side _ hopen push hstill => exact ((inv hopen).pushed push).still hstill
  | closed _ hs =>
    subst hs
    cases (close_closed s.world).symm.trans opened
  | @worker k io pc o at_ run =>
    have hopen := move_opened (doStep_move run) opened
    have hinv := inv hopen
    cases pass : pc.passes with
    | some i =>
      have entered : Watching (pc.entered s.world) := by
        intro side on queued
        cases pc <;> cases side <;> first | exact hinv .send on queued | exact hinv .recv on queued
      exact entered.locked (doStep_locked run pass)
    | none =>
      rcases doStep_touched run pass with htouched | ⟨pc', -, -, rfl⟩
      · intro side on queued
        have on' : 0 < s.world.timeout side := htouched.timeout ▸ on
        show o.world.sock.timer.isSome = true
        rw [htouched.timer]
        rcases worker_queued reach at_ run hopen queued with hqueued | hback
        · exact hinv side on' hqueued
        · simp only [putsBackUnwatched, at_, hback, Option.any_some, Bool.and_eq_false_imp,
            decide_eq_true_eq] at watched
          have := watched on'
          rwa [Option.isNone_eq_false_iff] at this
      · cases (close_closed s.world).symm.trans opened

/-- Where no worker puts something back under a timeout on a socket without a timer: what is
pending under a timeout has a timer that has been added and not cancelled. -/
theorem pending_watched {b : Build} {s : Sys}
    (h : Machine.Runs (step b) (fun s a => putsBackUnwatched s a = false) Sys.init s)
    (opened : s.world.sock.closed = false) (side : Side) (on : 0 < s.world.timeout side)
    (queued : s.world.queued side = true) :
    ∃ t, s.world.sock.timer = some t ∧ t < s.world.timers ∧ t ∉ s.world.canceled := by
  have inv : Watching s.world := by
    refine h.invariant (I := fun s => s.world.sock.closed = false → Watching s.world) ?_ ?_ opened
    · intro _ side _ queued
      cases side <;> cases queued
    · intro u v a run inv watched hstep
      exact watching_step run.reaches (step_clocked hstep) inv watched
  obtain ⟨t, ht⟩ := Option.isSome_iff_exists.mp (inv side on queued)
  exact ⟨t, ht, (reachable_issued h.reaches).timer t ht⟩

def watchedRun : List Label :=
  [.start, .setSendTimeoutCallback 5 (some 9), .send (some ⟨[7, 8], 0, 2⟩) 0, .writable,
    .collect ⟨false, true, false⟩, .disable, .onActive 0, .post, .worker 0 .again,
    .worker 0 .again, .worker 0 .again, .worker 0 .again, .worker 0 .again, .worker 0 .again]

theorem pending_watched_send : ∃ s : Sys,
    Machine.exec (Machine.guarded (fun s a => !putsBackUnwatched s a) (step ⟨false⟩)) Sys.init
      watchedRun = some s ∧
    ∃ t, s.world.sock.timer = some t ∧ t < s.world.timers ∧ t ∉ s.world.canceled := by
  have h : (Machine.exec (Machine.guarded (fun s a => !putsBackUnwatched s a) (step ⟨false⟩))
      Sys.init watchedRun).map (fun s => (s.world.sock.closed, s.world.timeout .send,
        s.world.queued .send)) = some (false, 5, true) := rfl
  obtain ⟨s, hs, hview⟩ := Option.map_eq_some_iff.mp h
  simp only [Prod.mk.injEq] at hview
  obtain ⟨hclosed, htimeout, hqueued⟩ := hview
  exact ⟨s, hs, pending_watched (b := ⟨false⟩) (.avoiding watchedRun hs) hclosed .send
    (by rw [htimeout]; decide) hqueued⟩

def unwatchedRun : List Label :=
  [.start, .send (some ⟨[7, 8], 0, 2⟩) 0, .writable, .collect ⟨false, true, false⟩, .disable,
    .onActive 0, .post, .worker 0 .again, .worker 0 .again, .worker 0 .again, .worker 0 .again,
    .setSendTimeoutCallback 5 (some 9), .worker 0 .again, .worker 0 .again]

theorem pending_unwatched : ∃ s : Sys,
    Machine.exec (step ⟨false⟩) Sys.init unwatchedRun = some s ∧ Reachable ⟨false⟩ s ∧
    s.world.sock.closed = false ∧ s.world.timeout .send = 5 ∧ s.world.queued .send = true ∧
    s.world.sock.timer = none ∧ s.world.timers = 0 := by
  have h : (Machine.exec (step ⟨false⟩) Sys.init unwatchedRun).map (fun s =>
      (s.world.sock.closed, s.world.timeout .send, s.world.queued .send, s.world.sock.timer,
        s.world.timers)) = some (false, 5, true, none, 0) := rfl
  obtain ⟨s, hs, hview⟩ := Option.map_eq_some_iff.mp h
  simp only [Prod.mk.injEq] at hview
  exact ⟨s, hs, Machine.Reaches.of_exec _ hs, hview⟩

end Hwnet.TCPSocket
