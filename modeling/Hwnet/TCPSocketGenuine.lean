import Hwnet.TCPSocketReports
import Hwnet.TCPSocketWatched

set_option autoImplicit false

/-!
# Genuine timeouts

Beside the socket runs a clock that knows since when each side has been waiting: since when it has
had something queued with no successful system call. A timeout is measured from the time of the
last activity instead, which a step may leave behind the beginning of the wait.
-/
namespace Hwnet.TCPSocket

def DoPc.holdsFront : DoPc → Bool
  | .read _ _ _ _ (.front _) | .readFailed _ _ _ (.front _) none => true
  | _ => false

namespace Sys

def waits (s : Sys) : Side → Bool
  | .send => (List.finRange 2).any (s.world.filled .send)
  | .recv => (List.finRange 2).any (s.world.filled .recv) || s.tasks.any DoPc.holdsFront

end Sys

def DoPc.refreshes : DoPc → Side → Bool
  | .written _ _ _ (.ok _) _ _, .send => true
  | .deliver .., .recv | .recvFinish .., .recv => true
  | _, _ => false

def Sys.refreshing (s : Sys) (side : Side) : Bool := s.tasks.any fun pc => pc.refreshes side

def DoPc.succeeds : DoPc → Io → Side → Bool
  | .writev .., .ok _, .send | .read .., .ok _, .recv => true
  | _, _, _ => false

def Sys.succeeds (s : Sys) (side : Side) : Label → Bool
  | .worker k io => s.tasks[k]?.any fun pc => pc.succeeds io side
  | _ => false

/-- The wait goes on through a step that leaves the side waiting and is no success. -/
def sinceAfter (since : Side → ℕ) (s : Sys) (a : Label) (s' : Sys) (side : Side) : ℕ :=
  if s.waits side && s'.waits side && !s.succeeds side a then since side else s'.world.now

def waiting (b : Build) (x : Sys × (Side → ℕ)) (a : Label) : Option (Sys × (Side → ℕ)) :=
  (step b x.1 a).map fun s' => (s', sinceAfter x.2 x.1 a s')

def noWait : Side → ℕ := fun _ => 0

/-! ## Steps that leave the time of the last activity behind -/

def Sys.begins (b : Build) (s : Sys) (a : Label) (side : Side) : Bool :=
  !s.waits side && (step b s a).any fun s' => s'.waits side

/-- Something is queued under a timeout, and the timer that is there keeps the old time. -/
def queuesStale (b : Build) (s : Sys) (a : Label) (side : Side) : Bool :=
  s.begins b a side && decide (0 < s.world.timeout side) && s.world.sock.timer.isSome &&
    decide (s.world.last side < s.world.now) && !s.refreshing side

def Label.turnsOn : Label → Side → Option UInt64
  | .setSendTimeoutCallback timeout (some _), .send
  | .setRecvTimeoutCallback timeout (some _), .recv => if 0 < timeout then some timeout else none
  | _, _ => none

/-- A timeout is turned on for what has been waiting since after the last activity, and no timer is
added; or its duration in nanoseconds does not fit into a size_t. -/
def registersStale (s : Sys) (since : Side → ℕ) (a : Label) (side : Side) : Bool :=
  !s.world.sock.closed && (a.turnsOn side).any fun timeout =>
    decide (UInt64.size ≤ timeout.toNat * 1000000) ||
      s.waits side && !(s.world.queued side && s.world.sock.timer.isNone) &&
        decide (s.world.last side < since side) && !s.refreshing side

def stale (b : Build) (x : Sys × (Side → ℕ)) (a : Label) : Bool :=
  queuesStale b x.1 a .send || queuesStale b x.1 a .recv ||
    registersStale x.1 x.2 a .send || registersStale x.1 x.2 a .recv

theorem not_stale {b : Build} {s : Sys} {since : Side → ℕ} {a : Label}
    (h : stale b (s, since) a = false) (side : Side) :
    queuesStale b s a side = false ∧ registersStale s since a side = false := by
  simp only [stale, Bool.or_eq_false_iff] at h
  obtain ⟨⟨⟨hqs, hqr⟩, hrs⟩, hrr⟩ := h
  cases side
  · exact ⟨hqs, hrs⟩
  · exact ⟨hqr, hrr⟩

/-! ## The worker begins no wait -/

def Bare (w : World) (next : Option DoPc) : Side → Prop
  | .send => ∀ j, w.sock.sendLists j = []
  | .recv => (∀ j, w.sock.recvLists j = []) ∧ ∀ q ∈ next, q.holdsFront = false

theorem not_waits {s : Sys} {next : Option DoPc} (sole : s.tasks = next.toList) (side : Side) :
    s.waits side = false ↔ Bare s.world next side := by
  cases side with
  | send => simp [Bare, Sys.waits, World.filled]
  | recv => simp [Bare, Sys.waits, World.filled, sole]

theorem addFront_bare {s : TCPSocket} (bare : ∀ j, s.sendLists j = []) (j k : Fin 2) :
    (s.addFront j).sendLists k = [] := by
  have hcur : s.ptrSendlist = [] := bare s.slistIdx
  simp only [addFront, setSendList, bare j, hcur, List.append_nil]
  by_cases hj : k = j
  · rw [hj, Function.update_self]
  · rw [Function.update_of_ne hj]
    by_cases hk : k = s.slistIdx
    · rw [hk, Function.update_self]
    · rw [Function.update_of_ne hk]
      exact bare k

theorem setSendList_bare {s : TCPSocket} (bare : ∀ j, s.sendLists j = []) (j k : Fin 2) :
    (s.setSendList j []).sendLists k = [] := by
  by_cases hj : k = j
  · rw [hj]
    exact Function.update_self _ _ _
  · exact (Function.update_of_ne hj _ _).trans (bare k)

theorem move_bare {w : World} {pc : DoPc} {o : Outcome} (h : Move w pc o)
    (bare : ∀ j, w.sock.sendLists j = []) : ∀ j, o.world.sock.sendLists j = [] := by
  have retimed {w' : World} (h : Retimed w w') : w'.sock.sendLists = w.sock.sendLists := by
    obtain ⟨t, hsock⟩ := h.sock
    rw [hsock]
  intro k
  cases h with
  | quiet _ _ h => exact (congrFun (retimed h) k).trans (bare k)
  | idle _ h => exact (congrFun (retimed h) k).trans (bare k)
  | leave _ h => exact (congrFun (retimed h) k).trans (bare k)
  | deliverFront =>
    rw [goto, noteReceived_sock]
    exact bare k
  | deliverList =>
    rw [goto, noteReceived_sock]
    exact bare k
  | @recvFinish _ _ hold => cases hold <;> exact bare k
  | @restoreClear _ _ _ hold | @restoreStale _ _ _ hold => cases hold <;> exact bare k
  | closing => exact (congrFun (congrArg Outgoing.sendLists (close_outgoing w)) k).trans (bare k)
  | writevAll => exact setSendList_bare bare _ k
  | @writtenOk i n total j ver null last s' put =>
    obtain ⟨l, act, hflushed, -⟩ := flushed_eq _ _ _
    rw [hflushed]
    unfold putBackSend at put
    split at put
    · have hnil : ({ w.sock with lastSendTime := last } : TCPSocket).sendLists j = [] := bare j
      rw [hnil] at put
      cases put
    · cases put
      exact bare k
  | writtenClear | writtenStale => exact addFront_bare bare _ k
  | doClose => exact setSendList_bare (setSendList_bare bare 0) 1 k
  | _ => exact bare k

theorem putBack_bare {i : Incoming} (bare : ∀ j, i.recvLists j = []) (j k : Fin 2) :
    (i.putBack j).recvLists k = [] := by
  simp only [Incoming.putBack, Incoming.setRecvList, bare j, bare i.rlistIdx, List.append_nil]
  by_cases hj : k = j
  · rw [hj, Function.update_self]
  · rw [Function.update_of_ne hj]
    by_cases hk : k = i.rlistIdx
    · rw [hk, Function.update_self]
    · rw [Function.update_of_ne hk]
      exact bare k

theorem receives_of_holdsFront {pc : DoPc} (h : pc.receives = false) : pc.holdsFront = false := by
  cases pc <;> first | rfl | cases h

theorem received_bare {w : World} {pc : DoPc} {i' : Incoming} {next : Option DoPc}
    (h : Received w pc i' next) (opened : w.sock.closed = false)
    (bare : ∀ j, w.sock.recvLists j = []) (hands : pc.holdsFront = false) :
    (∀ j, i'.recvLists j = []) ∧ ∀ q ∈ next, q.holdsFront = false := by
  have after (n : ℕ) (cw : Bool) (q : DoPc) (hq : q ∈ some (afterRecv n cw)) :
      q.holdsFront = false := by
    rw [← Option.mem_some.mp hq]
    exact receives_of_holdsFront (afterRecv_not_receives n cw)
  have sole {q' : DoPc} (free : q'.holdsFront = false) : ∀ q ∈ some q', q.holdsFront = false := by
    intro q hq
    rw [← Option.mem_some.mp hq]
    exact free
  cases h with
  | apart _ h' => exact ⟨bare, fun q hq => receives_of_holdsFront (h' q hq)⟩
  | takeFront fine list =>
    cases (bare w.sock.rlistIdx).symm.trans list
  | takeList fine some_ => exact absurd (bare w.sock.rlistIdx) some_
  | read => exact ⟨bare, sole rfl⟩
  | @readFails n cw cb ver hold err =>
    refine ⟨bare, sole ?_⟩
    cases hold with
    | front => cases hands
    | list => rfl
  | @deliverFront n m cw cb =>
    refine ⟨fun j => ?_, sole rfl⟩
    cases cb <;> exact bare j
  | deliverList more list => cases (bare _).symm.trans list
  | deliverClosed closed => cases opened.symm.trans closed
  | deliverEnd => exact ⟨bare, sole rfl⟩
  | @finish n cw hold =>
    refine ⟨fun j => ?_, after n cw⟩
    cases hold with
    | front => exact bare j
    | list k => exact putBack_bare bare k j
  | @restore n cw ver hold =>
    refine ⟨fun j => ?_, after n cw⟩
    cases hold with
    | front => cases hands
    | list k => exact putBack_bare bare k j
  | failed => exact ⟨bare, sole rfl⟩

theorem worker_bare {b : Build} {w : World} {io : Io} {pc : DoPc} {o : Outcome}
    (run : doStep b w io pc = some o) (opened : w.sock.closed = false) {side : Side}
    (bare : Bare w (some pc) side) : Bare o.world o.next side := by
  cases side with
  | send => exact move_bare (doStep_move run) bare
  | recv => exact received_bare (doStep_received run) opened bare.1 (bare.2 pc rfl)

/-! ## The worker and the clock -/

structure Timed (w : World) (pc : DoPc) (o : Outcome) (side : Side) : Prop where
  now : o.world.now = w.now
  timeout : o.world.timeout side = 0 ∨ o.world.timeout side = w.timeout side
  last : o.world.timeout side = 0 ∨ o.world.last side = w.now ∨
    o.world.last side = w.last side ∧
      (pc.refreshes side = true → ∃ q ∈ o.next, q.refreshes side = true)

theorem evaluate_timed {w : World} (i : ℕ) {pc : DoPc} (apart : ∀ side, pc.refreshes side = false)
    (side : Side) : Timed w pc (evaluate w i) side := by
  have h := evaluate_evaluated w i
  generalize evaluate w i = o at h
  have idle : pc.refreshes side = true → ∃ q ∈ o.next, q.refreshes side = true := by
    rw [apart side]
    exact fun h => nomatch h
  cases h <;> cases side <;> exact ⟨rfl, .inr rfl, .inr (.inr ⟨rfl, idle⟩)⟩

theorem locked_timed {w : World} {i : ℕ} {ts : List TimerId} {pc : DoPc} {o : Outcome}
    (apart : ∀ side, pc.refreshes side = false) (h : Locked w i ts o) (side : Side) :
    Timed w pc o side := by
  have idle (next : Option DoPc) (h : pc.refreshes side = true) :
      ∃ q ∈ next, q.refreshes side = true := by
    cases (apart side).symm.trans h
  cases h with
  | claimSend =>
    cases side with
    | send => exact ⟨rfl, .inl rfl, .inl rfl⟩
    | recv => exact ⟨rfl, .inr rfl, .inr (.inr ⟨rfl, idle _⟩)⟩
  | claimRecv =>
    cases side with
    | send => exact ⟨rfl, .inr rfl, .inr (.inr ⟨rfl, idle _⟩)⟩
    | recv => exact ⟨rfl, .inl rfl, .inl rfl⟩
  | @release t =>
    obtain ⟨hnow, htimeout, hlast⟩ := evaluate_timed (w := w.releaseTimer t) i apart side
    cases side <;> exact ⟨hnow, htimeout, hlast⟩
  | keep => exact evaluate_timed i apart side

theorem receives_of_refreshes {pc : DoPc} (h : pc.refreshes .recv = true) :
    pc.receives = true := by
  cases pc with
  | written _ _ _ io => cases io <;> cases h
  | _ => first | rfl | cases h

theorem received_refreshes {w : World} {pc : DoPc} {i' : Incoming} {next : Option DoPc}
    (h : Received w pc i' next) (opened : w.sock.closed = false)
    (pending : pc.refreshes .recv = true) :
    (∃ n cw hold, pc = .recvFinish n cw hold) ∨ ∃ q ∈ next, q.refreshes .recv = true := by
  cases h with
  | finish => exact .inl ⟨_, _, _, rfl⟩
  | deliverFront | deliverList | deliverEnd => exact .inr ⟨_, rfl, rfl⟩
  | deliverClosed closed => cases opened.symm.trans closed
  | apart h => cases h.symm.trans (receives_of_refreshes pending)
  | _ => cases pending

theorem touched_send (w : World) (pc : DoPc) :
    (pc.touched w).lastSendTime =
      if pc.refreshes .send && decide (0 < w.sock.sendTimeout) then w.now
      else w.sock.lastSendTime := by
  unfold DoPc.touched
  split
  · rfl
  · simp [DoPc.refreshes]
  · rename_i other
    have hfree : pc.refreshes .send = false := by
      cases pc with
      | written i j ver io =>
        cases io with
        | ok n => exact absurd rfl (other _ _ _ _ _ _)
        | again | eof | error => rfl
      | _ => rfl
    simp [hfree]

theorem touched_recv (w : World) (pc : DoPc) :
    (∃ n cw hold, pc = .recvFinish n cw hold) ∧
      (pc.touched w).lastRecvTime =
        (if 0 < w.sock.recvTimeout then w.now else w.sock.lastRecvTime) ∨
    (∀ n cw hold, pc ≠ .recvFinish n cw hold) ∧
      (pc.touched w).lastRecvTime = w.sock.lastRecvTime := by
  unfold DoPc.touched
  split
  · exact .inl ⟨⟨_, _, _, rfl⟩, rfl⟩
  · exact .inr ⟨fun _ _ _ h => (nomatch h), rfl⟩
  · rename_i other _
    exact .inr ⟨fun _ _ _ h => other _ _ _ h, rfl⟩

theorem off_of_not {t : UInt64} (h : ¬ 0 < t) : t = 0 := by
  simpa using h

theorem touched_timed {b : Build} {w : World} {io : Io} {pc : DoPc} {o : Outcome}
    (run : doStep b w io pc = some o) (h : Touched w pc o) (opened : w.sock.closed = false)
    (side : Side) : Timed w pc o side := by
  have htimeout := congrFun h.timeout side
  refine ⟨h.now, .inr htimeout, ?_⟩
  cases side with
  | send =>
    have hlast : o.world.last .send = _ :=
      (congrArg Timeouts.lastSendTime h.timeouts).trans (touched_send w pc)
    cases hpending : pc.refreshes .send with
    | false =>
      rw [hpending] at hlast
      exact .inr (.inr ⟨hlast, fun h => nomatch h⟩)
    | true =>
      rw [hpending] at hlast
      by_cases on : 0 < w.sock.sendTimeout
      · simp only [on, decide_true, Bool.and_true, if_true] at hlast
        exact .inr (.inl hlast)
      · exact .inl (htimeout.trans (off_of_not on))
  | recv =>
    have hlast : o.world.last .recv = (pc.touched w).lastRecvTime :=
      congrArg Timeouts.lastRecvTime h.timeouts
    rcases touched_recv w pc with ⟨-, htouched⟩ | ⟨other, htouched⟩
    · rw [htouched] at hlast
      by_cases on : 0 < w.sock.recvTimeout
      · rw [if_pos on] at hlast
        exact .inr (.inl hlast)
      · exact .inl (htimeout.trans (off_of_not on))
    · refine .inr (.inr ⟨hlast.trans htouched, fun pending => ?_⟩)
      rcases received_refreshes (doStep_received run) opened pending with ⟨n, cw, hold, hpc⟩ | hnext
      · exact absurd hpc (other n cw hold)
      · exact hnext

theorem passes_apart {pc : DoPc} {i : ℕ} (pass : pc.passes = some i) (side : Side) :
    pc.refreshes side = false := by
  cases pc <;> first | (cases side <;> rfl) | cases pass

theorem worker_timed {b : Build} {w : World} {io : Io} {pc : DoPc} {o : Outcome}
    (run : doStep b w io pc = some o) (opened : o.world.sock.closed = false) (side : Side) :
    Timed w pc o side := by
  cases pass : pc.passes with
  | some i =>
    obtain ⟨hnow, htimeout, hlast⟩ :=
      locked_timed (passes_apart pass) (doStep_locked run pass) side
    cases pc <;> cases side <;> exact ⟨hnow, htimeout, hlast⟩
  | none =>
    rcases doStep_touched run pass with htouched | ⟨pc', -, -, rfl⟩
    · exact touched_timed run htouched (htouched.closed.symm.trans opened) side
    · cases (close_closed w).symm.trans opened

theorem succeeds_refreshes {b : Build} {w : World} {io : Io} {pc : DoPc} {o : Outcome}
    {side : Side} (run : doStep b w io pc = some o) (success : pc.succeeds io side = true) :
    ∃ q ∈ o.next, q.refreshes side = true := by
  cases io with
  | ok n =>
    cases pc with
    | writev i j ver =>
      cases side with
      | send =>
        simp only [doStep, writevStep] at run
        split at run
        · cases run
          exact ⟨_, rfl, rfl⟩
        · cases run
      | recv => cases success
    | read i cw cb ver hold =>
      cases side with
      | send => cases success
      | recv =>
        simp only [doStep, readStep] at run
        split at run
        · cases run
          exact ⟨_, rfl, rfl⟩
        · cases run
    | _ => cases side <;> cases success
  | again | eof | error => cases pc <;> cases side <;> cases success

/-! ## The invariant -/

/-- The time of the last activity is not before the wait, unless it is about to be set. -/
structure Fresh (s : Sys) (since : ℕ) (side : Side) : Prop where
  past : since ≤ s.world.now
  fits : (s.world.timeout side).toNat * 1000000 < UInt64.size
  fresh : 0 < s.world.timeout side → s.waits side = true → s.refreshing side = false →
    since ≤ s.world.last side

theorem sinceAfter_past {s s' : Sys} {since : Side → ℕ} {side : Side}
    (past : since side ≤ s.world.now) (forth : s.world.now ≤ s'.world.now) (a : Label) :
    sinceAfter since s a s' side ≤ s'.world.now := by
  unfold sinceAfter
  split
  · exact Nat.le_trans past forth
  · exact Nat.le_refl _

/-- The waiting of a side goes by its lists and by the worker's hands. -/
theorem waits_congr {s s' : Sys} {side : Side}
    (filled : ∀ j, s'.world.filled side j = s.world.filled side j)
    (hands : s'.tasks.any DoPc.holdsFront = s.tasks.any DoPc.holdsFront) :
    s'.waits side = s.waits side := by
  have hfilled : s'.world.filled side = s.world.filled side := funext filled
  cases side <;> simp only [Sys.waits, hfilled, hands]

theorem any_queued (p : DoPc → Bool) (free : p .queued = false) (tasks : List DoPc) (n : ℕ) :
    (tasks ++ List.replicate n DoPc.queued).any p = tasks.any p := by
  rw [List.any_append, Bool.or_eq_left_iff_imp]
  intro h
  obtain ⟨pc, hpc, htrue⟩ := List.any_eq_true.mp h
  rw [List.eq_of_mem_replicate hpc] at htrue
  cases free.symm.trans htrue

theorem Fresh.aside {s s' : Sys} {since : Side → ℕ} {side : Side} {a : Label}
    (inv : Fresh s (since side) side) (caller : s.succeeds side a = false)
    (timeout : s'.world.timeout side = s.world.timeout side)
    (last : s'.world.last side = s.world.last side) (now : s.world.now ≤ s'.world.now)
    (waits : s'.waits side = s.waits side) (refreshing : s'.refreshing side = s.refreshing side) :
    Fresh s' (sinceAfter since s a s' side) side := by
  refine ⟨sinceAfter_past inv.past now a, ?_, fun on hwaits settled => ?_⟩
  · rw [timeout]
    exact inv.fits
  · rw [timeout] at on
    rw [refreshing] at settled
    have hbefore := waits.symm.trans hwaits
    rw [sinceAfter, hbefore, hwaits, caller, last]
    exact inv.fresh on hbefore settled

theorem Fresh.off {s s' : Sys} {since : Side → ℕ} {side : Side} (inv : Fresh s (since side) side)
    (a : Label) (now : s.world.now ≤ s'.world.now)
    (off : s'.world.timeout side = 0) : Fresh s' (sinceAfter since s a s' side) side := by
  refine ⟨sinceAfter_past inv.past now a, ?_, fun on => ?_⟩
  · rw [off]
    decide
  · rw [off] at on
    exact absurd on (by decide)

theorem succeeds_caller {s : Sys} {a : Label} (away : ∀ k io, a ≠ .worker k io) (side : Side) :
    s.succeeds side a = false := by
  cases a with
  | worker k io => exact absurd rfl (away k io)
  | _ => rfl

/-- Registering touches the timer and one time only. -/
theorem register_frame (w : World) (side : Side) :
    (w.register side).now = w.now ∧ (w.register side).filled = w.filled ∧
      (w.register side).current = w.current := by
  rw [World.register_eq]
  split
  · cases side <;> exact ⟨rfl, rfl, rfl⟩
  · exact ⟨rfl, rfl, rfl⟩

theorem register_last (w : World) (side : Side) :
    (w.register side).last side =
      if w.queued side && w.sock.timer.isNone then w.now else w.last side := by
  rw [World.register_eq]
  split
  · cases side <;> rfl
  · rfl

theorem register_last_other (w : World) {side side' : Side} (ne : side' ≠ side) :
    (w.register side).last side' = w.last side' := by
  rw [World.register_eq]
  split
  · cases side <;> cases side' <;> first | rfl | exact absurd rfl ne
  · rfl

theorem watch_frame (w : World) (side : Side) :
    (w.watch side).now = w.now ∧ (w.watch side).filled = w.filled ∧
      (w.watch side).current = w.current := by
  unfold World.watch
  split
  · exact register_frame w side
  · exact ⟨rfl, rfl, rfl⟩

theorem watch_last_other (w : World) {side side' : Side} (ne : side' ≠ side) :
    (w.watch side).last side' = w.last side' := by
  unfold World.watch
  split
  · exact register_last_other w ne
  · rfl

theorem waits_of_queued {s : Sys} {side : Side} (h : s.world.queued side = true) :
    s.waits side = true := by
  have hlists : (List.finRange 2).any (s.world.filled side) = true :=
    List.any_eq_true.mpr ⟨_, List.mem_finRange _, h⟩
  cases side with
  | send => exact hlists
  | recv =>
    unfold Sys.waits
    rw [hlists, Bool.true_or]

theorem Fresh.pushed_other {s s' : Sys} {since : Side → ℕ} {side side' : Side} {a : Label}
    {w : World} (inv : Fresh s (since side') side') (away : ∀ k io, a ≠ .worker k io)
    (push : Pushed side s.world w) (world : Still (w.watch side) s'.world)
    (tasks : s'.tasks = s.tasks) (ne : side' ≠ side) :
    Fresh s' (sinceAfter since s a s' side') side' := by
  obtain ⟨hnow, hfilled, -⟩ := watch_frame w side
  refine inv.aside (succeeds_caller away side') ?_ ?_ ?_ ?_ ?_
  · rw [world.timeout, (watch_quiet w side).timeout, push.timeout]
  · have hlast : w.last side' = s.world.last side' := by
      cases side'
      · exact congrArg Timeouts.lastSendTime push.timeouts
      · exact congrArg Timeouts.lastRecvTime push.timeouts
    rw [world.last, watch_last_other w ne, hlast]
  · exact Nat.le_of_eq (push.now.symm.trans (hnow.symm.trans world.now.symm))
  · refine waits_congr (fun j => ?_) (by rw [tasks])
    rw [world.filled, hfilled]
    exact push.filled side' j (.inl ne)
  · rw [Sys.refreshing, Sys.refreshing, tasks]

theorem Fresh.pushed {b : Build} {s s' : Sys} {since : Side → ℕ} {side : Side} {a : Label}
    {w : World} (inv : Fresh s (since side) side) (h : step b s a = some s')
    (away : ∀ k io, a ≠ .worker k io) (push : Pushed side s.world w)
    (world : Still (w.watch side) s'.world) (tasks : s'.tasks = s.tasks)
    (calm : queuesStale b s a side = false) :
    Fresh s' (sinceAfter since s a s' side) side := by
  obtain ⟨hnow, hfilled, hcurrent⟩ := watch_frame w side
  have htimeout : s'.world.timeout side = s.world.timeout side := by
    rw [world.timeout, (watch_quiet w side).timeout, push.timeout]
  have hnow' : s'.world.now = s.world.now := by rw [world.now, hnow, push.now]
  have hwaits : s'.waits side = true := by
    refine waits_of_queued ?_
    rw [world.queued, World.queued, hfilled, hcurrent]
    exact push.queued
  refine ⟨sinceAfter_past inv.past (Nat.le_of_eq hnow'.symm) a, ?_, fun on _ settled => ?_⟩
  · rw [htimeout]
    exact inv.fits
  · rw [htimeout] at on
    rw [Sys.refreshing, tasks] at settled
    have hwatch : w.watch side = w.register side := by
      rw [World.watch, push.timeout, if_pos on]
    have hlast : s'.world.last side =
        if s.world.sock.timer.isNone then s.world.now else s.world.last side := by
      have hbefore : w.last side = s.world.last side := by
        cases side
        · exact congrArg Timeouts.lastSendTime push.timeouts
        · exact congrArg Timeouts.lastRecvTime push.timeouts
      rw [world.last, hwatch, register_last, push.queued, Bool.true_and,
        congrArg Timeouts.timer push.timeouts, push.now, hbefore]
    rw [hlast]
    cases hbefore : s.waits side with
    | true =>
      have hsince : sinceAfter since s a s' side = since side := by
        simp [sinceAfter, hbefore, hwaits, succeeds_caller away]
      rw [hsince]
      split
      · exact inv.past
      · exact inv.fresh on hbefore settled
    | false =>
      have hsince : sinceAfter since s a s' side = s.world.now := by
        simp [sinceAfter, hbefore, hnow']
      rw [hsince]
      cases htimer : s.world.sock.timer with
      | none => exact Nat.le_refl _
      | some t =>
        simpa [queuesStale, Sys.begins, hbefore, h, hwaits, on, htimer, Sys.refreshing,
          settled] using calm

structure Unmoved (w w' : World) : Prop where
  now : w'.now = w.now
  filled : w'.filled = w.filled
  last : w'.last = w.last

theorem setTimeout_unmoved (w : World) (timeout : UInt64) (cb : Option Callback) (side : Side) :
    Unmoved w (w.setTimeout timeout cb side) := by
  cases side <;> exact ⟨rfl, rfl, rfl⟩

theorem cancelTimer_unmoved (w : World) : Unmoved w (cancelTimer w) := by
  unfold cancelTimer
  split <;> exact ⟨rfl, rfl, rfl⟩

theorem Fresh.unmoved {s : Sys} {w : World} {since : Side → ℕ} {side : Side} {a : Label}
    (inv : Fresh s (since side) side) (away : ∀ k io, a ≠ .worker k io)
    (same : Unmoved s.world w) (timeout : w.timeout side = s.world.timeout side) :
    Fresh (s.lift w) (sinceAfter since s a (s.lift w) side) side := by
  refine inv.aside (succeeds_caller away side) timeout (congrFun same.last side)
    (Nat.le_of_eq same.now.symm) ?_ rfl
  exact waits_congr (fun j => congrFun (congrFun same.filled side) j) rfl

theorem not_registersStale {s : Sys} {since : Side → ℕ} {a : Label} {side : Side}
    {timeout : UInt64} (opened : s.world.sock.closed = false)
    (on : a.turnsOn side = some timeout) (calm : registersStale s since a side = false) :
    timeout.toNat * 1000000 < UInt64.size ∧
      (s.waits side && !(s.world.queued side && s.world.sock.timer.isNone) &&
        decide (s.world.last side < since side) && !s.refreshing side) = false := by
  unfold registersStale at calm
  rw [opened, on, Bool.not_false, Bool.true_and, Option.any_some, Bool.or_eq_false_iff] at calm
  exact ⟨Nat.lt_of_not_le (of_decide_eq_false calm.1), calm.2⟩

/-- A timeout is turned on: what waits is measured from now, or from a time that is no older than
the wait. -/
theorem Fresh.turnedOn {s : Sys} {since : Side → ℕ} {side : Side} {timeout : UInt64}
    {cb : Option Callback} (inv : Fresh s (since side) side) (opened : s.world.sock.closed = false)
    (on : 0 < timeout) (current : cb.isSome = true)
    (calm : registersStale s since (side.label timeout cb) side = false) :
    Fresh (s.lift ((s.world.setTimeout timeout cb side).register side))
      (sinceAfter since s (side.label timeout cb)
        (s.lift ((s.world.setTimeout timeout cb side).register side)) side) side := by
  obtain ⟨hnow, hfilled, hlast⟩ := setTimeout_unmoved s.world timeout cb side
  obtain ⟨hnow', hfilled', -⟩ := register_frame (s.world.setTimeout timeout cb side) side
  have hturns : (side.label timeout cb).turnsOn side = some timeout := by
    obtain ⟨c, rfl⟩ := Option.isSome_iff_exists.mp current
    cases side <;> exact if_pos on
  have htimeout : ((s.world.setTimeout timeout cb side).register side).timeout side = timeout := by
    rw [(register_quiet _ side).timeout]
    exact setTimeout_self s.world timeout cb side
  obtain ⟨hfits, hkept⟩ := not_registersStale opened hturns calm
  refine ⟨sinceAfter_past inv.past (Nat.le_of_eq (hnow'.trans hnow).symm) _, ?_,
    fun _ hwaits settled => ?_⟩
  · show (((s.world.setTimeout timeout cb side).register side).timeout side).toNat * _ < _
    rw [htimeout]
    exact hfits
  · have hbefore : s.waits side = true := by
      have hsame : (s.lift ((s.world.setTimeout timeout cb side).register side)).waits side =
          s.waits side :=
        waits_congr (fun j => congrFun (congrFun (hfilled'.trans hfilled) side) j) rfl
      exact hsame.symm.trans hwaits
    have hsince : sinceAfter since s (side.label timeout cb)
        (s.lift ((s.world.setTimeout timeout cb side).register side)) side = since side := by
      rw [sinceAfter, hbefore, hwaits]
      cases side <;> rfl
    rw [hsince]
    show since side ≤ ((s.world.setTimeout timeout cb side).register side).last side
    rw [register_last, setTimeout_queued, setTimeout_timer, hnow, hlast]
    split
    · exact inv.past
    · rename_i kept
      have hset : s.refreshing side = false := settled
      rw [Bool.not_eq_true] at kept
      simpa [hbefore, kept, hset] using hkept

theorem setTimeoutCallback_other (w : World) (timeout : UInt64) (cb : Option Callback)
    {side side' : Side} (ne : side' ≠ side) :
    (w.setTimeoutCallback timeout cb side).now = w.now ∧
      (w.setTimeoutCallback timeout cb side).filled = w.filled ∧
      (w.setTimeoutCallback timeout cb side).timeout side' = w.timeout side' ∧
      (w.setTimeoutCallback timeout cb side).last side' = w.last side' := by
  obtain ⟨hnow, hfilled, hlast⟩ := setTimeout_unmoved w timeout cb side
  obtain ⟨hnow₀, hfilled₀, hlast₀⟩ := setTimeout_unmoved w 0 none side
  rw [World.setTimeoutCallback_eq]
  split_ifs
  · exact ⟨rfl, rfl, rfl, rfl⟩
  · obtain ⟨hnow', hfilled', -⟩ := register_frame (w.setTimeout timeout cb side) side
    refine ⟨hnow'.trans hnow, hfilled'.trans hfilled, ?_, ?_⟩
    · rw [(register_quiet _ side).timeout, setTimeout_other _ _ _ ne]
    · rw [register_last_other _ ne, hlast]
  · obtain ⟨hnow', hfilled', hlast'⟩ := cancelTimer_unmoved (w.setTimeout 0 none side)
    refine ⟨hnow'.trans hnow₀, hfilled'.trans hfilled₀, ?_, ?_⟩
    · rw [cancelTimer_timeout, setTimeout_other _ _ _ ne]
    · rw [hlast', hlast₀]
  · exact ⟨hnow₀, hfilled₀, setTimeout_other _ _ _ ne, congrFun hlast₀ side'⟩

theorem Fresh.set {s : Sys} {since : Side → ℕ} {side side' : Side} {timeout : UInt64}
    {cb : Option Callback} (inv : Fresh s (since side) side)
    (calm : registersStale s since (side'.label timeout cb) side = false) :
    Fresh (s.lift (s.world.setTimeoutCallback timeout cb side'))
      (sinceAfter since s (side'.label timeout cb)
        (s.lift (s.world.setTimeoutCallback timeout cb side')) side) side := by
  have away (k : ℕ) (io : Io) : side'.label timeout cb ≠ .worker k io := by
    cases side' <;> exact fun h => nomatch h
  by_cases hside : side = side'
  · subst hside
    rw [World.setTimeoutCallback_eq]
    split_ifs with hclosed hon hother
    · exact inv.unmoved away ⟨rfl, rfl, rfl⟩ rfl
    · exact inv.turnedOn (by simpa using hclosed) hon.1 hon.2 calm
    · obtain ⟨hnow, -⟩ := cancelTimer_unmoved (s.world.setTimeout 0 none side)
      refine inv.off _ (Nat.le_of_eq ?_) ?_
      · exact (hnow.trans (setTimeout_unmoved _ _ _ _).now).symm
      · exact (congrFun (cancelTimer_timeout _) side).trans (setTimeout_self _ _ _ side)
    · refine inv.off _ (Nat.le_of_eq (setTimeout_unmoved _ _ _ _).now.symm) ?_
      exact setTimeout_self _ _ _ side
  · obtain ⟨hnow, hfilled, htimeout, hlast⟩ := setTimeoutCallback_other s.world timeout cb hside
    refine inv.aside (succeeds_caller away side) htimeout hlast (Nat.le_of_eq hnow.symm) ?_ rfl
    exact waits_congr (fun j => congrFun (congrFun hfilled side) j) rfl

theorem Fresh.worker {b : Build} {s : Sys} {since : Side → ℕ} {side : Side} {k : ℕ} {io : Io}
    {pc : DoPc} {o : Outcome} (inv : Fresh s (since side) side) (reach : Reachable b s)
    (at_ : s.tasks[k]? = some pc) (run : doStep b s.world io pc = some o)
    (opened : o.world.sock.closed = false) :
    Fresh (s.resume k o) (sinceAfter since s (.worker k io) (s.resume k o) side) side := by
  have hopen := move_opened (doStep_move run) opened
  obtain ⟨htasks, rfl⟩ := (reachable_oneWorker reach hopen).single at_
  obtain ⟨hnow, htimeout, hlast⟩ := worker_timed run opened side
  have hnow' : s.world.now = (s.resume 0 o).world.now := hnow.symm
  by_cases hoff : o.world.timeout side = 0
  · exact inv.off _ (Nat.le_of_eq hnow') hoff
  · have hsame := htimeout.resolve_left hoff
    have hnext := resume_sole htasks o
    refine ⟨sinceAfter_past inv.past (Nat.le_of_eq hnow') _, ?_, fun on hwaits settled => ?_⟩
    · show (o.world.timeout side).toNat * _ < _
      rw [hsame]
      exact inv.fits
    · have hpast := sinceAfter_past inv.past (Nat.le_of_eq hnow') (.worker 0 io)
      rcases hlast.resolve_left hoff with hset | ⟨hkept, hpending⟩
      · show _ ≤ o.world.last side
        rw [hset]
        exact Nat.le_trans hpast (Nat.le_of_eq hnow)
      · -- Outside the window the worker leaves the time alone and begins no wait.
        have hsettled : ¬ ∃ q ∈ o.next, q.refreshes side = true := by
          rintro ⟨q, hq, hrefreshes⟩
          rw [Sys.refreshing, hnext, List.any_eq_false] at settled
          exact settled q (Option.mem_toList.mpr hq) hrefreshes
        have hbefore : s.waits side = true := by
          cases hwait : s.waits side with
          | true => rfl
          | false =>
            have hsole : s.tasks = (some pc).toList := htasks
            have hbare := (not_waits hsole side).mp hwait
            have hafter := (not_waits hnext side).mpr (worker_bare run hopen hbare)
            exact hafter.symm.trans hwaits
        have hfail : s.succeeds side (.worker 0 io) = false := by
          cases hsuccess : pc.succeeds io side with
          | true => exact absurd (succeeds_refreshes run hsuccess) hsettled
          | false => simp [Sys.succeeds, htasks, hsuccess]
        have hsince : sinceAfter since s (.worker 0 io) (s.resume 0 o) side = since side := by
          rw [sinceAfter, hbefore, hwaits, hfail]
          rfl
        have hstill : s.refreshing side = false := by
          have hpc : pc.refreshes side = false := by
            cases hrefreshes : pc.refreshes side with
            | true => exact absurd (hpending hrefreshes) hsettled
            | false => rfl
          simp [Sys.refreshing, htasks, hpc]
        have hon : 0 < s.world.timeout side := by
          rw [← hsame]
          exact on
        rw [hsince]
        show since side ≤ o.world.last side
        rw [hkept]
        exact inv.fresh hon hbefore hstill

theorem Fresh.fired {s : Sys} {t : TimerId} {since : Side → ℕ} {side : Side}
    (inv : Fresh s (since side) side) :
    Fresh (s.unlock (onTimer s.world t))
      (sinceAfter since s (.onTimer t) (s.unlock (onTimer s.world t)) side) side := by
  have hunmoved : Unmoved s.world (onTimer s.world t).1 := by
    rw [onTimer_world]
    exact ⟨rfl, rfl, rfl⟩
  refine inv.aside rfl ?_ (congrFun hunmoved.last side) (Nat.le_of_eq hunmoved.now.symm)
    (waits_congr (fun j => congrFun (congrFun hunmoved.filled side) j) rfl) rfl
  show (onTimer s.world t).1.timeout side = _
  rw [onTimer_world]
  cases side <;> rfl

theorem fresh_step {b : Build} {s s' : Sys} {since : Side → ℕ} {a : Label}
    (reach : Reachable b s) (h : step b s a = some s') (calm : stale b (s, since) a = false)
    (side : Side) (opened : s'.world.sock.closed = false)
    (inv : s.world.sock.closed = false → Fresh s (since side) side) :
    Fresh s' (sinceAfter since s a s' side) side := by
  obtain ⟨hqueues, hregisters⟩ := not_stale calm side
  have untimed (caller : a.untimed = true) (k : ℕ) (io : Io) : a ≠ .worker k io := by
    rintro rfl
    cases caller
  cases step_clocked h with
  | still caller hstill tasks =>
    obtain ⟨n, hn⟩ := tasks
    refine (inv (hstill.closed.symm.trans opened)).aside (succeeds_caller (untimed caller) side)
      (congrFun hstill.timeout side) (congrFun hstill.last side) (Nat.le_of_eq hstill.now.symm)
      ?_ ?_
    · refine waits_congr (fun j => congrFun (congrFun hstill.filled side) j) ?_
      rw [hn, any_queued _ rfl]
    · rw [Sys.refreshing, Sys.refreshing, hn, any_queued _ (by cases side <;> rfl)]
  | tick d =>
    refine (inv opened).aside rfl ?_ ?_ (Nat.le_add_right _ _) (waits_congr (fun j => ?_) rfl) rfl
    all_goals cases side <;> rfl
  | fired added =>
    have hstepped := step_stepped h
    exact (inv (caller_opened hstepped (fun _ _ h => nomatch h) opened)).fired
  | @set side' timeout cb =>
    have hopen : s.world.sock.closed = false := by
      refine caller_opened (step_stepped h) (fun k io => ?_) opened
      cases side' <;> exact fun h => nomatch h
    exact (inv hopen).set hregisters
  | pushed side' caller hopen push world tasks =>
    by_cases hside : side = side'
    · subst hside
      exact (inv hopen).pushed h (untimed caller) push world tasks hqueues
    · exact (inv hopen).pushed_other (untimed caller) push world tasks hside
  | closed _ hs =>
    subst hs
    cases (close_closed s.world).symm.trans opened
  | @worker k io pc o at_ run =>
    exact (inv (move_opened (doStep_move run) opened)).worker reach at_ run opened

theorem reachable_fresh {b : Build} {s : Sys} {since : Side → ℕ}
    (h : Machine.Runs (waiting b) (fun x a => stale b x a = false) (Sys.init, noWait) (s, since)) :
    Reachable b s ∧ (s.world.sock.closed = false → ∀ side, Fresh s (since side) side) := by
  refine h.invariant (I := fun x => Reachable b x.1 ∧
    (x.1.world.sock.closed = false → ∀ side, Fresh x.1 (x.2 side) side)) ?_ ?_
  · refine ⟨.refl, fun _ side => ⟨Nat.le_refl _, ?_, fun on => ?_⟩⟩
    · cases side <;> decide
    · cases side <;> cases on
  · intro u v a _ ⟨reach, inv⟩ calm hstep
    simp only [waiting, Option.map_eq_some_iff] at hstep
    obtain ⟨s', hs', rfl⟩ := hstep
    exact ⟨reach.next trivial hs', fun opened side =>
      fresh_step reach hs' calm side opened fun hopen => inv hopen side⟩

/-! ## Timeouts are genuine -/

/-- Where the duration fits into a size_t, the comparison is the one of the numbers. -/
theorem elapsed_of_over {now last : ℕ} {timeout : UInt64}
    (fits : timeout.toNat * 1000000 < UInt64.size) (late : elapsedOver now last timeout = true) :
    last + timeout.toNat * 1000000 < now := by
  rw [elapsedOver, decide_eq_true_eq, UInt64.lt_iff_toNat_lt, UInt64.toNat_mul] at late
  have hnanos : (1000000 : UInt64).toNat = 1000000 := rfl
  have helapsed : (UInt64.ofNat (now - last)).toNat ≤ now - last := by
    rw [UInt64.toNat_ofNat']
    exact Nat.mod_le _ _
  rw [hnanos, Nat.mod_eq_of_lt fits] at late
  omega

/-- Only a pass calls a timeout callback. -/
theorem claimed_settled {b : Build} {s s' : Sys} {k : ℕ} {io : Io} {side : Side} {cb : Callback}
    (reach : Reachable b s) (h : step b s (.worker k io) = some s')
    (claimed : Claimed s.world side cb s'.world) (side' : Side) : s.refreshing side' = false := by
  obtain ⟨pc, o, at_, run, rfl⟩ := step_worker h
  have hsilent (same : timeoutReports o.world.log = timeoutReports s.world.log) :
      s.refreshing side' = false := by
    have hlonger := congrArg List.length (claimed.reports.symm.trans same)
    simp at hlonger
  cases pass : pc.passes with
  | some i =>
    rw [Sys.refreshing, ((reachable_oneWorker reach claimed.opened).single at_).1]
    simp [passes_apart pass]
  | none =>
    rcases doStep_touched run pass with htouched | ⟨pc', -, -, rfl⟩
    · exact hsilent htouched.reports
    · exact hsilent (close_reports s.world)

/-! ## Since when a side has been waiting -/

theorem close_now (w : World) : (close w).1.now = w.now := by
  unfold close
  split
  · rfl
  · exact (cancelTimer_unmoved w).now

theorem worker_now {b : Build} {w : World} {io : Io} {pc : DoPc} {o : Outcome}
    (run : doStep b w io pc = some o) : o.world.now = w.now := by
  have evaluated (w : World) (i : ℕ) : (evaluate w i).world.now = w.now := by
    have h := evaluate_evaluated w i
    generalize evaluate w i = o at h
    cases h <;> rfl
  cases pass : pc.passes with
  | some i =>
    have hentered : (pc.entered w).now = w.now := by cases pc <;> rfl
    have hlocked := doStep_locked run pass
    generalize pc.entered w = w' at hentered hlocked
    cases hlocked with
    | claimSend | claimRecv => exact hentered
    | release => exact (evaluated _ _).trans hentered
    | keep => exact (evaluated _ _).trans hentered
  | none =>
    rcases doStep_touched run pass with htouched | ⟨pc', -, -, rfl⟩
    · exact htouched.now
    · exact close_now w

theorem step_now {b : Build} {s s' : Sys} {a : Label} (h : step b s a = some s') :
    s.world.now ≤ s'.world.now := by
  cases step_clocked h with
  | still _ hstill => exact Nat.le_of_eq hstill.now.symm
  | tick d => exact Nat.le_add_right _ _
  | @fired t =>
    have hworld : s.world.now = (onTimer s.world t).1.now := by rw [onTimer_world]
    exact Nat.le_of_eq hworld
  | set side =>
    exact Nat.le_of_eq (setTimeoutCallback_other s.world _ _ side.other_ne).1.symm
  | pushed side _ _ push hstill =>
    refine Nat.le_of_eq ?_
    rw [hstill.now, (watch_frame _ side).1, push.now]
  | closed _ hs =>
    subst hs
    exact Nat.le_of_eq (close_now s.world).symm
  | worker _ run => exact Nat.le_of_eq (worker_now run).symm

def Lasts (side : Side) (x : Sys × (Side → ℕ)) (a : Label) : Prop :=
  x.1.waits side = true ∧ x.1.succeeds side a = false

def Overdue (b : Build) (x : Sys × (Side → ℕ)) (side : Side) : Prop :=
  ∃ u, Machine.Reaches (waiting b) (Sys.init, noWait) u ∧
    Machine.Runs (waiting b) (Lasts side) u x ∧ x.1.waits side = true ∧
    u.1.world.now + (x.1.world.timeout side).toNat * 1000000 < x.1.world.now

theorem since_past {b : Build} {x : Sys × (Side → ℕ)}
    (h : Machine.Reaches (waiting b) (Sys.init, noWait) x) (side : Side) :
    x.2 side ≤ x.1.world.now := by
  refine h.invariant (I := fun x => x.2 side ≤ x.1.world.now) (Nat.le_refl _) ?_
  intro u v a _ past _ hstep
  simp only [waiting, Option.map_eq_some_iff] at hstep
  obtain ⟨s', hs', rfl⟩ := hstep
  exact sinceAfter_past past (step_now hs') a

theorem since_lasts {b : Build} {u x : Sys × (Side → ℕ)} {side : Side}
    (h : Machine.Runs (waiting b) (Lasts side) u x) (waits : x.1.waits side = true) :
    x.2 side = u.2 side := by
  induction h with
  | refl => rfl
  | @next y z a _ lasts hstep ih =>
    simp only [waiting, Option.map_eq_some_iff] at hstep
    obtain ⟨s', -, rfl⟩ := hstep
    show sinceAfter y.2 y.1 a s' side = _
    rw [sinceAfter, lasts.1, waits, lasts.2]
    exact ih lasts.1

/-- A wait began in some state of the run, at the time the clock knows. -/
theorem waits_since {b : Build} {x : Sys × (Side → ℕ)} {side : Side}
    (h : Machine.Reaches (waiting b) (Sys.init, noWait) x) (waits : x.1.waits side = true) :
    ∃ u, Machine.Reaches (waiting b) (Sys.init, noWait) u ∧
      Machine.Runs (waiting b) (Lasts side) u x ∧ u.1.world.now = x.2 side := by
  induction h with
  | refl => cases side <;> cases waits
  | @next y z a run _ hstep ih =>
    by_cases lasts : Lasts side y a
    · obtain ⟨u, hu, hrun, hnow⟩ := ih lasts.1
      have hnext := hrun.next lasts hstep
      exact ⟨u, hu, hnext, hnow.trans ((since_lasts hrun lasts.1).trans
        (since_lasts hnext waits).symm)⟩
    · refine ⟨z, run.next trivial hstep, .refl, ?_⟩
      simp only [waiting, Option.map_eq_some_iff] at hstep
      obtain ⟨s', -, rfl⟩ := hstep
      show s'.world.now = sinceAfter y.2 y.1 a s' side
      rw [sinceAfter, if_neg]
      intro hlasts
      simp only [Bool.and_eq_true, Bool.not_eq_true'] at hlasts
      exact lasts ⟨hlasts.1.1, hlasts.2⟩

theorem overdue_iff {b : Build} {x : Sys × (Side → ℕ)} {side : Side}
    (h : Machine.Reaches (waiting b) (Sys.init, noWait) x) (waits : x.1.waits side = true) :
    Overdue b x side ↔
      x.2 side + (x.1.world.timeout side).toNat * 1000000 < x.1.world.now := by
  constructor
  · rintro ⟨u, hu, hrun, -, hlate⟩
    have hsince := since_lasts hrun waits
    have hpast := since_past hu side
    omega
  · intro hlate
    obtain ⟨u, hu, hrun, hnow⟩ := waits_since h waits
    exact ⟨u, hu, hrun, waits, by omega⟩

/-- In a run none of whose steps leaves the time of the last activity behind the beginning of a
wait, a timeout callback is called only on a side that has been waiting, with no successful write
or read, for more than its timeout. -/
theorem timeouts_genuine {b : Build} {s s' : Sys} {since : Side → ℕ} {a : Label}
    (h : Machine.Runs (waiting b) (fun x a => stale b x a = false) (Sys.init, noWait) (s, since))
    (hstep : step b s a = some s') :
    timeoutReports s'.world.log = timeoutReports s.world.log ∨
      ∃ side cb, timeoutReports s'.world.log = timeoutReports s.world.log ++ [(side, cb)] ∧
        s.world.queued side = true ∧ Overdue b (s, since) side := by
  obtain ⟨reach, hfresh⟩ := reachable_fresh h
  cases clocked_reported (step_clocked hstep) with
  | quiet _ _ hquiet => exact .inl hquiet.reports
  | closes _ _ reports => exact .inl reports
  | set _ _ hreset => exact .inl hreset.reports
  | @claimed k io side cb _ hclaimed =>
    have inv := hfresh hclaimed.opened side
    have hdue := hclaimed.due
    rw [World.expired_eq] at hdue
    simp only [Bool.and_eq_true, decide_eq_true_eq] at hdue
    obtain ⟨⟨⟨on, -⟩, queued⟩, late⟩ := hdue
    have hwaits := waits_of_queued queued
    have hsince := inv.fresh on hwaits (claimed_settled reach hstep hclaimed side)
    have helapsed := elapsed_of_over inv.fits late
    refine .inr ⟨side, cb, hclaimed.reports, queued, (overdue_iff h.reaches hwaits).mpr ?_⟩
    show since side + (s.world.timeout side).toNat * 1000000 < s.world.now
    omega

def genuineRun : List Label :=
  [.start, .setSendTimeoutCallback 5 (some 9), .tick 3000000, .send (some ⟨[7], 0, 1⟩) 0,
    .tick 6000000, .onTimer 0, .post, .worker 0 .again]

def nextReports (b : Build) (s : Sys) :
    List (Side × Callback) × Option (List (Side × Callback)) × Bool :=
  (timeoutReports s.world.log,
    (step b s (.worker 0 .again)).map fun s' => timeoutReports s'.world.log, s.waits .send)

theorem timeouts_genuine_send : ∃ s since s',
    Machine.exec (Machine.guarded (fun x a => !stale ⟨false⟩ x a) (waiting ⟨false⟩))
      (Sys.init, noWait) genuineRun = some (s, since) ∧
    step ⟨false⟩ s (.worker 0 .again) = some s' ∧
    timeoutReports s'.world.log = [(.send, 9)] ∧ Overdue ⟨false⟩ (s, since) .send := by
  have h : (Machine.exec (Machine.guarded (fun x a => !stale ⟨false⟩ x a) (waiting ⟨false⟩))
      (Sys.init, noWait) genuineRun).map (fun x => nextReports ⟨false⟩ x.1) =
      some ([], some [(.send, 9)], true) := rfl
  obtain ⟨⟨s, since⟩, hs, hview⟩ := Option.map_eq_some_iff.mp h
  simp only [nextReports, Prod.mk.injEq, Option.map_eq_some_iff] at hview
  obtain ⟨hnone, ⟨s', hstep, hreports⟩, -⟩ := hview
  refine ⟨s, since, s', hs, hstep, hreports, ?_⟩
  rcases timeouts_genuine (.avoiding _ hs) hstep with hsame | ⟨side, cb, hlonger, -, hoverdue⟩
  · rw [hreports, hnone] at hsame
    cases hsame
  · rw [hreports, hnone] at hlonger
    cases hlonger
    exact hoverdue

def staleRun : List Label :=
  [.start, .setRecvCallback (some 1), .recv (some ⟨0, 0, 1⟩),
    .setRecvTimeoutCallback 1000 (some 8), .setSendTimeoutCallback 5 (some 9), .tick 6000000,
    .send (some ⟨[7], 0, 1⟩) 0, .onTimer 0, .post, .worker 0 .again]

/-- The send timeout is reported in the instant of the send. -/
theorem timeout_not_genuine : ∃ s since s',
    Machine.exec (waiting ⟨false⟩) (Sys.init, noWait) staleRun = some (s, since) ∧
    step ⟨false⟩ s (.worker 0 .again) = some s' ∧
    timeoutReports s'.world.log = timeoutReports s.world.log ++ [(.send, 9)] ∧
    since .send = s.world.now ∧ ¬ Overdue ⟨false⟩ (s, since) .send := by
  have h : (Machine.exec (waiting ⟨false⟩) (Sys.init, noWait) staleRun).map (fun x =>
      (nextReports ⟨false⟩ x.1, x.1.world.now, x.2 .send)) =
      some (([], some [(.send, 9)], true), 6000000, 6000000) := rfl
  obtain ⟨⟨s, since⟩, hs, hview⟩ := Option.map_eq_some_iff.mp h
  simp only [nextReports, Prod.mk.injEq, Option.map_eq_some_iff] at hview
  obtain ⟨⟨hnone, ⟨s', hstep, hreports⟩, hwaits⟩, hnow, hsince⟩ := hview
  refine ⟨s, since, s', hs, hstep, ?_, hsince.trans hnow.symm, ?_⟩
  · rw [hreports, hnone]
    rfl
  · rw [overdue_iff (Machine.Reaches.of_exec _ hs) hwaits]
    show ¬ since .send + _ < s.world.now
    omega

end Hwnet.TCPSocket
