import Hwnet.TCPSocketPasses

set_option autoImplicit false

/-!
# What a step does to the timeouts

The send and the receive timeout do the same, each with its own fields and its own list; they
share the timer and the closures. Every step is one of the `Clocked`.
-/
namespace Hwnet.TCPSocket

inductive Side where
  | send
  | recv
  deriving DecidableEq, Repr

def Side.other : Side → Side
  | .send => .recv
  | .recv => .send

theorem Side.eq_other {side side' : Side} (ne : side' ≠ side) : side' = side.other := by
  cases side <;> cases side' <;> first | rfl | exact absurd rfl ne

theorem Side.other_ne (side : Side) : side.other ≠ side := by
  cases side <;> exact fun h => by cases h

namespace World

def timeout (w : World) : Side → UInt64
  | .send => w.sock.sendTimeout
  | .recv => w.sock.recvTimeout

def timeoutCallback (w : World) : Side → Option Callback
  | .send => w.sock.sendTimeoutCallback
  | .recv => w.sock.recvTimeoutCallback

def last (w : World) : Side → ℕ
  | .send => w.sock.lastSendTime
  | .recv => w.sock.lastRecvTime

def current (w : World) : Side → Fin 2
  | .send => w.sock.slistIdx
  | .recv => w.sock.rlistIdx

def filled (w : World) : Side → Fin 2 → Bool
  | .send, j => !(w.sock.sendLists j).isEmpty
  | .recv, j => !(w.sock.recvLists j).isEmpty

def queued (w : World) (side : Side) : Bool := w.filled side (w.current side)

def expired (w : World) : Side → Bool
  | .send => sendExpired w
  | .recv => recvExpired w

def setTimeout (w : World) (timeout : UInt64) (cb : Option Callback) : Side → World
  | .send => { w with sock := { w.sock with sendTimeout := timeout, sendTimeoutCallback := cb } }
  | .recv => { w with sock := { w.sock with recvTimeout := timeout, recvTimeoutCallback := cb } }

def setLast (w : World) (last : ℕ) : Side → World
  | .send => { w with sock := { w.sock with lastSendTime := last } }
  | .recv => { w with sock := { w.sock with lastRecvTime := last } }

def register (w : World) : Side → World
  | .send => registerTimerSend w
  | .recv => registerTimerRecv w

def setTimeoutCallback (w : World) (timeout : UInt64) (cb : Option Callback) : Side → World
  | .send => setSendTimeoutCallback w timeout cb
  | .recv => setRecvTimeoutCallback w timeout cb

def watch (w : World) (side : Side) : World :=
  if 0 < w.timeout side then w.register side else w

theorem expired_eq (w : World) (side : Side) :
    w.expired side = (decide (0 < w.timeout side) && (w.timeoutCallback side).isSome &&
      w.queued side && elapsedOver w.now (w.last side) (w.timeout side)) := by
  cases side <;> rfl

theorem register_eq (w : World) (side : Side) :
    w.register side = if w.queued side && w.sock.timer.isNone then
      (w.setLast w.now side).addSocketTimer else w := by
  cases side <;> rfl

theorem setTimeoutCallback_eq (w : World) (timeout : UInt64) (cb : Option Callback)
    (side : Side) :
    w.setTimeoutCallback timeout cb side =
      if w.sock.closed then w
      else if 0 < timeout ∧ cb.isSome then (w.setTimeout timeout cb side).register side
      else if w.timeout side.other = 0 then cancelTimer (w.setTimeout 0 none side)
      else w.setTimeout 0 none side := by
  cases side <;> rfl

end World

def timeoutReports (log : List Obs) : List (Side × Callback) :=
  log.flatMap fun
    | .sendTimeoutCallback cb => [(.send, cb)]
    | .recvTimeoutCallback cb => [(.recv, cb)]
    | _ => []

def Obs.timely : Obs → Bool
  | .sendTimeoutCallback _ | .recvTimeoutCallback _ => false
  | _ => true

theorem timeoutReports_timely (log l : List Obs) (h : ∀ o ∈ l, o.timely = true) :
    timeoutReports (log ++ l) = timeoutReports log := by
  have hnil : timeoutReports l = [] := List.flatMap_eq_nil_iff.mpr fun o ho => by
    have := h o ho
    cases o <;> first | rfl | cases this
  rw [timeoutReports, List.flatMap_append]
  exact (congrArg _ hnil).trans (List.append_nil _)

/-- Neither the timeouts nor the lists nor the clock have changed, and no timeout is reported. -/
structure Still (w w' : World) : Prop where
  timeouts : w'.sock.toTimeouts = w.sock.toTimeouts
  current : w'.current = w.current
  filled : w'.filled = w.filled
  closed : w'.sock.closed = w.sock.closed
  now : w'.now = w.now
  timers : w'.timers = w.timers
  canceled : w'.canceled = w.canceled
  reports : timeoutReports w'.log = timeoutReports w.log

theorem Still.refl (w : World) : Still w w := ⟨rfl, rfl, rfl, rfl, rfl, rfl, rfl, rfl⟩

variable {w w' w'' : World}

theorem Still.trans (h : Still w w') (h' : Still w' w'') : Still w w'' :=
  ⟨h'.timeouts.trans h.timeouts, h'.current.trans h.current, h'.filled.trans h.filled,
    h'.closed.trans h.closed, h'.now.trans h.now, h'.timers.trans h.timers,
    h'.canceled.trans h.canceled, h'.reports.trans h.reports⟩

theorem Still.note (h : Still w w') {o : Obs} (ho : o.timely = true) : Still w (w'.note o) := by
  refine h.trans ⟨rfl, rfl, rfl, rfl, rfl, rfl, rfl, timeoutReports_timely _ _ fun x hx => ?_⟩
  rw [List.mem_singleton.mp hx]
  exact ho

theorem wake_still (h : Still w w') (work : Bool) : Still w (wake w' work).1 := by
  rw [wake_eq]
  exact h.trans ⟨rfl, rfl, rfl, rfl, rfl, rfl, rfl, rfl⟩

theorem Still.timeout (h : Still w w') : w'.timeout = w.timeout := by
  funext side
  cases side
  · exact congrArg Timeouts.sendTimeout h.timeouts
  · exact congrArg Timeouts.recvTimeout h.timeouts

theorem Still.timeoutCallback (h : Still w w') : w'.timeoutCallback = w.timeoutCallback := by
  funext side
  cases side
  · exact congrArg Timeouts.sendTimeoutCallback h.timeouts
  · exact congrArg Timeouts.recvTimeoutCallback h.timeouts

theorem Still.last (h : Still w w') : w'.last = w.last := by
  funext side
  cases side
  · exact congrArg Timeouts.lastSendTime h.timeouts
  · exact congrArg Timeouts.lastRecvTime h.timeouts

theorem Still.timer (h : Still w w') : w'.sock.timer = w.sock.timer :=
  congrArg Timeouts.timer h.timeouts

theorem Still.queued (h : Still w w') (side : Side) : w'.queued side = w.queued side := by
  rw [World.queued, World.queued, h.filled, h.current]

structure Pushed (side : Side) (w w' : World) : Prop where
  timeouts : w'.sock.toTimeouts = w.sock.toTimeouts
  current : w'.current = w.current
  queued : w'.queued side = true
  filled : ∀ side' j, side' ≠ side ∨ j ≠ w.current side → w'.filled side' j = w.filled side' j
  closed : w'.sock.closed = w.sock.closed
  now : w'.now = w.now
  timers : w'.timers = w.timers
  canceled : w'.canceled = w.canceled
  reports : timeoutReports w'.log = timeoutReports w.log

theorem queueSend_pushed (w : World) (buff : Buffer) (len : ℕ) (last : Bool) :
    Pushed .send w (queueSend w buff len last) where
  timeouts := rfl
  current := rfl
  queued := by simp [queueSend, World.note, World.queued, World.filled, World.current, setSendList]
  filled side' j h := by
    cases side' with
    | recv => rfl
    | send =>
      have hj : j ≠ w.sock.slistIdx := h.resolve_left fun h => h rfl
      simp [queueSend, World.note, World.filled, setSendList, Function.update_of_ne hj]
  closed := rfl
  now := rfl
  timers := rfl
  canceled := rfl
  reports := timeoutReports_timely _ _ fun x hx => by rw [List.mem_singleton.mp hx]; rfl

theorem queueRecv_pushed (w : World) (buff : RecvBuffer) :
    Pushed .recv w (queueRecv w buff) where
  timeouts := rfl
  current := rfl
  queued := by simp [queueRecv, World.note, World.queued, World.filled, World.current, setRecvList]
  filled side' j h := by
    cases side' with
    | send => rfl
    | recv =>
      have hj : j ≠ w.sock.rlistIdx := h.resolve_left fun h => h rfl
      simp [queueRecv, World.note, World.filled, setRecvList, Function.update_of_ne hj]
  closed := rfl
  now := rfl
  timers := rfl
  canceled := rfl
  reports := timeoutReports_timely _ _ fun x hx => by rw [List.mem_singleton.mp hx]; rfl

/-! ## The callers and the timer -/

def dueClosures (w : World) : ℕ := (sendExpired w).toNat + (recvExpired w).toNat

theorem onTimer_world (w : World) (t : TimerId) :
    (onTimer w t).1 = { w with sock := { w.sock with
      closures := w.sock.closures ++ List.replicate (dueClosures w) t
      doing := w.sock.doing || decide (0 < dueClosures w) } } := by
  unfold onTimer dueClosures pushClosure
  dsimp only
  have hr (l : List TimerId) (d : Bool) :
      recvExpired { w with sock := { w.sock with closures := l, doing := d } } = recvExpired w :=
    rfl
  cases hs : sendExpired w <;> cases hv : recvExpired w <;>
    simp [wake_eq, hr, hv, List.replicate]

def Side.label (side : Side) (timeout : UInt64) (cb : Option Callback) : Label :=
  match side with
  | .send => .setSendTimeoutCallback timeout cb
  | .recv => .setRecvTimeoutCallback timeout cb

def Label.untimed : Label → Bool
  | .worker .. | .setSendTimeoutCallback .. | .setRecvTimeoutCallback .. => false
  | _ => true

/-- What a step can do to timeouts, lists, timers and clock. -/
inductive Clocked (b : Build) (s : Sys) : Label → Sys → Prop where
  | still {a : Label} {s' : Sys} (caller : a.untimed = true) (world : Still s.world s'.world)
      (tasks : ∃ n, s'.tasks = s.tasks ++ List.replicate n .queued) : Clocked b s a s'
  | tick (d : ℕ) :
      Clocked b s (.tick d) (s.lift { s.world with now := s.world.now + d })
  | fired {t : TimerId} (added : t < s.world.timers) :
      Clocked b s (.onTimer t) (s.unlock (onTimer s.world t))
  | set (side : Side) {timeout : UInt64} {cb : Option Callback} :
      Clocked b s (side.label timeout cb) (s.lift (s.world.setTimeoutCallback timeout cb side))
  | pushed (side : Side) {a : Label} {s' : Sys} {w : World} (caller : a.untimed = true)
      (opened : s.world.sock.closed = false) (push : Pushed side s.world w)
      (world : Still (w.watch side) s'.world) (tasks : s'.tasks = s.tasks) : Clocked b s a s'
  | closed {s' : Sys} (opened : s.world.sock.closed = false) (h : s' = s.unlock (close s.world)) :
      Clocked b s .close s'
  | worker {k : ℕ} {io : Io} {pc : DoPc} {o : Outcome} (at_ : s.tasks[k]? = some pc)
      (run : doStep b s.world io pc = some o) : Clocked b s (.worker k io) (s.resume k o)

theorem start_still (w : World) : Still w (start w) := by
  unfold start
  split
  · exact .refl w
  · exact ⟨rfl, rfl, rfl, rfl, rfl, rfl, rfl, rfl⟩

theorem shutdownCall_still (w : World) : Still w (shutdownCall w) := by
  have marked : Still w { w with sock := { w.sock with shutdown := true } } :=
    ⟨rfl, rfl, rfl, rfl, rfl, rfl, rfl, rfl⟩
  unfold shutdownCall
  split
  · exact .refl w
  · unfold markShutdown
    dsimp only
    split
    · exact marked.note rfl
    · exact marked

theorem setReady_still (w : World) (event : Event) (err : ℤ) :
    Still w { w with sock := w.sock.setReady event err } := by
  unfold setReady
  cases event.read <;> cases event.write <;> cases event.error <;>
    exact ⟨rfl, rfl, rfl, rfl, rfl, rfl, rfl, rfl⟩

theorem onActive_still (w : World) (event : Event) (err : ℤ) :
    Still w (onActive w event err).1 := by
  unfold onActive
  exact wake_still (setReady_still w event err) _

theorem sendWith_clocked (w : World) (last : Bool) (len : ℕ) (buff : Option Buffer) :
    Still w (sendWith w last len buff).1 ∨ w.sock.closed = false ∧
      ∃ w', Pushed .send w w' ∧ Still (w'.watch .send) (sendWith w last len buff).1 := by
  cases buff with
  | none => exact .inl (.refl w)
  | some buff =>
    simp only [sendWith]
    generalize (if len = 0 then buff.len else len) = n
    split
    · exact .inl (.refl w)
    · unfold _send
      split
      · exact .inl (.refl w)
      · rename_i opened
        simp only [Bool.or_eq_true, not_or, Bool.not_eq_true] at opened
        exact .inr ⟨opened.1.1, _, queueSend_pushed w buff n last, wake_still (.refl _) _⟩

theorem recv_clocked (w : World) (buff : Option RecvBuffer) :
    Still w (TCPSocket.recv w buff).1 ∨ w.sock.closed = false ∧
      ∃ w', Pushed .recv w w' ∧ Still (w'.watch .recv) (TCPSocket.recv w buff).1 := by
  cases buff with
  | none => exact .inl (.refl w)
  | some buff =>
    simp only [TCPSocket.recv]
    split
    · exact .inl (.refl w)
    · unfold _recv
      split
      · exact .inl (.refl w)
      · rename_i opened
        split
        · exact .inl (.refl w)
        · exact .inr ⟨by simpa using opened, _, queueRecv_pushed w buff, wake_still (.refl _) _⟩

theorem clocked_of_push {b : Build} {s s' : Sys} {a : Label} (side : Side) (r : World × Bool)
    (caller : a.untimed = true) (hs : s' = s.unlock r)
    (h : Still s.world r.1 ∨ s.world.sock.closed = false ∧
      ∃ w', Pushed side s.world w' ∧ Still (w'.watch side) r.1) : Clocked b s a s' := by
  subst hs
  rcases h with h | ⟨opened, w', push, world⟩
  · exact .still caller h ⟨0, (List.append_nil _).symm⟩
  · exact .pushed side caller opened push world rfl

theorem step_clocked {b : Build} {s s' : Sys} {a : Label} (h : step b s a = some s') :
    Clocked b s a s' := by
  have none : ∃ n, s.tasks = s.tasks ++ List.replicate n .queued := ⟨0, (List.append_nil _).symm⟩
  cases a <;> simp only [step, Option.some.injEq] at h
  case start => subst h; exact .still rfl (start_still _) none
  case send =>
    exact clocked_of_push .send _ rfl h.symm (sendWith_clocked _ _ _ _)
  case sendAndClose =>
    exact clocked_of_push .send _ rfl h.symm (sendWith_clocked _ _ _ _)
  case recv =>
    exact clocked_of_push .recv _ rfl h.symm (recv_clocked _ _)
  case shutdown => subst h; exact .still rfl (shutdownCall_still _) none
  case close =>
    cases hc : s.world.sock.closed with
    | false => exact .closed hc h.symm
    | true =>
      subst h
      refine .still rfl ?_ none
      unfold TCPSocket.close
      rw [if_pos hc]
      exact .refl _
  case setHighWater | setFlushCallback | setErrorCallback | setCloseCallback | setRecvCallback =>
    subst h
    exact .still rfl ⟨rfl, rfl, rfl, rfl, rfl, rfl, rfl, rfl⟩ none
  case setSendTimeoutCallback => subst h; exact .set .send
  case setRecvTimeoutCallback => subst h; exact .set .recv
  case onTimer t =>
    split at h
    · rename_i added; cases h; exact .fired added
    · cases h
  case tick d => subst h; exact .tick d
  case arrive =>
    subst h
    exact .still rfl ⟨rfl, rfl, rfl, rfl, rfl, rfl, rfl, rfl⟩ none
  case writable =>
    subst h
    exact .still rfl ⟨rfl, rfl, rfl, rfl, rfl, rfl, rfl, rfl⟩ none
  case collect event =>
    unfold collectStep at h
    split at h
    · cases h
      exact .still rfl ⟨rfl, rfl, rfl, rfl, rfl, rfl, rfl, rfl⟩ none
    · cases h
  case disable =>
    unfold disableStep at h
    split at h
    · cases h
      exact .still rfl ⟨rfl, rfl, rfl, rfl, rfl, rfl, rfl, rfl⟩ none
    · cases h
  case onActive err =>
    unfold onActiveStep at h
    split at h
    · cases h
      exact .still rfl (onActive_still _ _ _) none
    · cases h
  case post =>
    unfold postStep at h
    split at h
    · cases h
      exact .still rfl (.refl _) ⟨1, rfl⟩
    · cases h
  case worker k io =>
    obtain ⟨pc, o, at_, run, rfl⟩ := step_worker h
    exact .worker at_ run

/-! ## The worker outside its passes -/

def DoPc.runs : DoPc → List TimerId
  | .sendTimeout _ t | .recvTimeout _ t => [t]
  | _ => []

/-- A successful read or write restarts the count of its side, if that timeout is on. -/
def DoPc.touched (w : World) : DoPc → Timeouts
  | .recvFinish .. =>
    { w.sock.toTimeouts with
      lastRecvTime := if 0 < w.sock.recvTimeout then w.now else w.sock.lastRecvTime }
  | .written _ _ _ (.ok _) _ _ =>
    { w.sock.toTimeouts with
      lastSendTime := if 0 < w.sock.sendTimeout then w.now else w.sock.lastSendTime }
  | _ => w.sock.toTimeouts

structure Touched (w : World) (pc : DoPc) (o : Outcome) : Prop where
  timeouts : o.world.sock.toTimeouts = pc.touched w
  closed : o.world.sock.closed = w.sock.closed
  doing : o.world.sock.doing = w.sock.doing
  now : o.world.now = w.now
  timers : o.world.timers = w.timers
  canceled : o.world.canceled = w.canceled
  reports : timeoutReports o.world.log = timeoutReports w.log
  next : ∀ q ∈ o.next, q.runs = [] ∧ (q.closes = true → pc.closes = true)

theorem goes_free {w : World} {pc pc' : DoPc} (free : pc'.runs = []) (stays : pc'.closes = false) :
    ∀ q ∈ (goto w pc').next, q.runs = [] ∧ (q.closes = true → pc.closes = true) := by
  intro q hq
  cases hq
  exact ⟨free, fun h => by cases stays.symm.trans h⟩

theorem afterRecv_free (i : ℕ) (cw : Bool) :
    (afterRecv i cw).runs = [] ∧ (afterRecv i cw).closes = false := by
  cases cw <;> exact ⟨rfl, rfl⟩

/-- The socket, the descriptor and the buffers change, the log and the clock do not. -/
theorem touched_sock {w : World} {s : TCPSocket} {k : Kernel} {m : Scattered.Mem UInt8}
    {pc pc' : DoPc}
    (timeouts : s.toTimeouts = pc.touched w) (closed : s.closed = w.sock.closed)
    (doing : s.doing = w.sock.doing) (free : pc'.runs = []) (stays : pc'.closes = false) :
    Touched w pc (goto { w with sock := s, kernel := k, memory := m } pc') :=
  ⟨timeouts, closed, doing, rfl, rfl, rfl, rfl, goes_free free stays⟩

theorem touched_goto {w : World} {pc pc' : DoPc} (same : pc.touched w = w.sock.toTimeouts)
    (free : pc'.runs = []) (stays : pc'.closes = false) : Touched w pc (goto w pc') :=
  touched_sock same.symm rfl rfl free stays

theorem Touched.note {w w' : World} {pc pc' : DoPc} (h : Touched w pc (goto w' pc')) {o : Obs}
    (ho : o.timely = true) : Touched w pc (goto (w'.note o) pc') :=
  ⟨h.timeouts, h.closed, h.doing, h.now, h.timers, h.canceled,
    (timeoutReports_timely _ _ fun x hx => by rw [List.mem_singleton.mp hx]; exact ho).trans
      h.reports, fun q hq => h.next q hq⟩

theorem recvTake_touched {b : Build} {w : World} {i : ℕ} {cw : Bool} {o : Outcome}
    (h : recvTake b w i cw = some o) : Touched w (.recvInWorker i cw) o := by
  unfold recvTake at h
  dsimp only at h
  split_ifs at h
  · cases h; exact touched_goto rfl (afterRecv_free i cw).1 (afterRecv_free i cw).2
  · cases h; exact touched_goto rfl rfl rfl
  · cases h; exact touched_sock rfl rfl rfl rfl rfl
  · split at h
    · cases h
    · cases h; exact touched_sock rfl rfl rfl rfl rfl

theorem readStep_touched {w : World} {i : ℕ} {cw : Bool} {cb : Option Callback} {ver : BitVec 32}
    {hold : Hold} {io : Io} {o : Outcome} (h : readStep w i cw cb ver hold io = some o) :
    Touched w (.read i cw cb ver hold) o := by
  cases io <;> simp only [readStep] at h
  case ok n =>
    split at h
    · cases h
      refine Touched.note ?_ rfl
      exact touched_sock rfl rfl rfl rfl rfl
    · cases h
  case again =>
    split at h
    · cases h
    · cases h; exact touched_goto rfl rfl rfl
  case eof =>
    split at h
    · cases h; exact touched_goto rfl rfl rfl
    · cases h
  case error => cases h; exact touched_goto rfl rfl rfl

theorem deliverStep_touched {w : World} {i : ℕ} {cw : Bool} {cb : Option Callback} {hold : Hold}
    {n : ℕ} {o : Outcome} (h : deliverStep w i cw cb hold n = some o) :
    Touched w (.deliver i cw cb hold n) o := by
  have received {w' : World} {pc' : DoPc} (buff : RecvBuffer) (m : ℕ)
      (hw : Touched w (.deliver i cw cb hold n) (goto w' pc')) :
      Touched w (.deliver i cw cb hold n) (goto (noteReceived w' cb buff m) pc') := by
    cases cb with
    | none => exact hw
    | some cb => exact hw.note rfl
  unfold deliverStep at h
  split at h
  · cases h
    exact received _ _ (touched_goto rfl rfl rfl)
  · split at h
    · cases h; exact touched_goto rfl rfl rfl
    · split at h
      · cases h
      · dsimp only at h
        split at h
        · cases h
          exact received _ _
            (touched_sock rfl rfl rfl (afterRecv_free i cw).1 (afterRecv_free i cw).2)
        · cases h
          exact received _ _ (touched_sock rfl rfl rfl rfl rfl)

theorem recvFinishStep_touched (w : World) (i : ℕ) (cw : Bool) (hold : Hold) :
    Touched w (.recvFinish i cw hold) (recvFinishStep w i cw hold) := by
  unfold recvFinishStep
  dsimp only
  split
  · rename_i on
    refine touched_sock ?_ ?_ ?_ (afterRecv_free i cw).1 (afterRecv_free i cw).2
    · simp only [DoPc.touched, if_pos on]
      cases hold <;> rfl
    · cases hold <;> rfl
    · cases hold <;> rfl
  · rename_i off
    refine touched_sock ?_ ?_ ?_ (afterRecv_free i cw).1 (afterRecv_free i cw).2
    · simp only [DoPc.touched, if_neg off]
      cases hold <;> rfl
    · cases hold <;> rfl
    · cases hold <;> rfl

theorem readFailedStep_touched (w : World) (i : ℕ) (cw : Bool) (ver : BitVec 32) (hold : Hold)
    (err : Option ℤ) :
    Touched w (.readFailed i cw ver hold err) (readFailedStep w i cw ver hold err) := by
  cases err with
  | some errno => exact touched_sock rfl rfl rfl rfl rfl
  | none =>
    obtain ⟨hruns, hstays⟩ := afterRecv_free i cw
    unfold readFailedStep
    dsimp only
    split <;> cases hold <;> exact touched_sock rfl rfl rfl hruns hstays

theorem sendTake_touched (w : World) (i : ℕ) : Touched w (.sendInWorker i) (sendTake w i) := by
  unfold sendTake
  dsimp only
  split_ifs
  all_goals exact touched_sock rfl rfl rfl rfl rfl

theorem writevStep_touched {w : World} {i : ℕ} {j : Fin 2} {ver : BitVec 32} {io : Io}
    {o : Outcome} (h : writevStep w i j ver io = some o) : Touched w (.writev i j ver) o := by
  cases io <;> simp only [writevStep] at h
  case ok n =>
    split_ifs at h
    · cases h
      have clears (pc' : DoPc) (free : pc'.runs = []) (stays : pc'.closes = false) :
          Touched w (.writev i j ver) (goto { w with sock := w.sock.setSendList j [] } pc') :=
        touched_sock rfl rfl rfl free stays
      exact (clears _ rfl rfl).note (o := .written _) rfl
    · cases h
      exact (touched_goto rfl rfl rfl).note rfl
  case again => cases h; exact touched_sock rfl rfl rfl rfl rfl
  case eof => cases h
  case error => cases h; exact (touched_goto rfl rfl rfl).note rfl

theorem writtenStep_touched {w : World} {i total : ℕ} {j : Fin 2} {ver : BitVec 32} {null : Bool}
    {io : Io} {o : Outcome} (h : writtenStep w i j ver total null io = some o) :
    Touched w (.written i j ver io total null) o := by
  cases io <;> simp only [writtenStep] at h
  case ok n =>
    unfold writtenOk at h
    simp only [Option.map_eq_some_iff] at h
    obtain ⟨s', hput, rfl⟩ := h
    obtain ⟨lists, rfl⟩ := putBackSend_frame hput
    obtain ⟨l, act, hf, hl⟩ := flushed_eq _ _ _
    rw [hf]
    have hlog := timeoutReports_timely w.log l fun o ho => by rw [hl o ho]; rfl
    split
    · rename_i on
      exact ⟨by simp only [DoPc.touched, if_pos on]; rfl, rfl, rfl, rfl, rfl, rfl, hlog,
        goes_free rfl rfl⟩
    · rename_i off
      exact ⟨by simp only [DoPc.touched, if_neg off]; rfl, rfl, rfl, rfl, rfl, rfl, hlog,
        goes_free rfl rfl⟩
  case again =>
    cases h
    unfold writtenAgain
    dsimp only
    split <;> exact touched_sock rfl rfl rfl rfl rfl
  case eof => cases h
  case error =>
    cases h
    unfold writtenError
    split <;> exact touched_sock rfl rfl rfl rfl rfl

theorem sendActionStep_touched (w : World) (i : ℕ) (act : SendAction) :
    Touched w (.sendAction i act) (sendActionStep w i act) := by
  cases act with
  | nothing => exact touched_goto rfl rfl rfl
  | callHighwaterCallback cb bytes =>
    cases cb with
    | none => exact touched_goto rfl rfl rfl
    | some cb => exact (touched_goto rfl rfl rfl).note rfl
  | callFlushCallback cb last =>
    exact (touched_goto rfl (by cases last <;> rfl) (by cases last <;> rfl)).note rfl
  | callErrorCallback cb =>
    cases cb with
    | none => exact touched_goto rfl rfl rfl
    | some cb => exact (touched_goto rfl rfl rfl).note rfl

theorem doBody_touched (w : World) (i : ℕ) (cr cw : Bool) :
    Touched w (.body i cr cw) (doBody w i cr cw) := by
  unfold doBody
  split_ifs <;> exact touched_goto rfl rfl rfl

/-- Outside its passes the worker only notes the time of a read or write, or it closes. -/
theorem doStep_touched {b : Build} {w : World} {io : Io} {pc : DoPc} {o : Outcome}
    (h : doStep b w io pc = some o) (pass : pc.passes = none) :
    Touched w pc o ∨
      ∃ pc', pc'.runs = [] ∧ pc'.closes = false ∧ o = ⟨(close w).1, (close w).2, some pc'⟩ := by
  cases pc with
  | queued => cases h; exact .inl (touched_goto rfl rfl rfl)
  | lock | sendTimeout | recvTimeout => cases pass
  | body => cases h; exact .inl (doBody_touched _ _ _ _)
  | recvInWorker => exact .inl (recvTake_touched h)
  | read => exact .inl (readStep_touched h)
  | deliver => exact .inl (deliverStep_touched h)
  | recvFinish => cases h; exact .inl (recvFinishStep_touched _ _ _ _)
  | readFailed => cases h; exact .inl (readFailedStep_touched _ _ _ _ _ _)
  | recvError i cw cb =>
    cases h
    cases cb with
    | some cb =>
      exact .inl ((touched_goto rfl (afterRecv_free i cw).1 (afterRecv_free i cw).2).note rfl)
    | none => exact .inr ⟨_, (afterRecv_free i cw).1, (afterRecv_free i cw).2, rfl⟩
  | sendInWorker => cases h; exact .inl (sendTake_touched _ _)
  | writev => exact .inl (writevStep_touched h)
  | written => exact .inl (writtenStep_touched h)
  | enable => cases h; exact .inl (touched_sock rfl rfl rfl rfl rfl)
  | sendAction => cases h; exact .inl (sendActionStep_touched _ _ _)
  | closing => cases h; exact .inr ⟨_, rfl, rfl, rfl⟩
  | doClose =>
    cases h
    exact .inl ⟨rfl, rfl, rfl, rfl, rfl, rfl, rfl,
      fun q hq => by cases hq; exact ⟨rfl, fun _ => rfl⟩⟩
  | closeCallback cb =>
    cases cb with
    | none => cases h; exact .inl ⟨rfl, rfl, rfl, rfl, rfl, rfl, rfl, fun q hq => by cases hq⟩
    | some cb =>
      cases h
      refine .inl ⟨rfl, rfl, rfl, rfl, rfl, rfl, ?_, fun q hq => by cases hq⟩
      exact timeoutReports_timely _ _ fun x hx => by rw [List.mem_singleton.mp hx]; rfl

end Hwnet.TCPSocket
