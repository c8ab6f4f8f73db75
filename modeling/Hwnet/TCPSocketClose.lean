import Hwnet.TCPSocketOneWorker

set_option autoImplicit false

/-!
# The close callback

`Close` posts its task without setting `doing`. An event that reaches `OnActive` afterwards and
finds something to read posts a second Do, and each of the two calls the close callback.
-/
namespace Hwnet.TCPSocket

def Obs.isClose : Obs → Bool
  | .closeCallback _ => true
  | _ => false

def closeCalls (log : List Obs) : ℕ := log.countP Obs.isClose

theorem closeCalls_append (log l : List Obs) (h : ∀ o ∈ l, o.isClose = false) :
    closeCalls (log ++ l) = closeCalls log := by
  have : l.countP Obs.isClose = 0 := List.countP_eq_zero.mpr fun o ho => by simp [h o ho]
  simp [closeCalls, this]

theorem closeCalls_note (w : World) (o : Obs) (h : o.isClose = false) :
    closeCalls (w.note o).log = closeCalls w.log :=
  closeCalls_append w.log [o] (by simp [h])

theorem Retimed.closeCalls {w w' : World} (h : Retimed w w') :
    closeCalls w'.log = closeCalls w.log := by
  obtain ⟨l, hl, hcall⟩ := h.log
  rw [hl]
  refine closeCalls_append _ _ fun o ho => ?_
  have := hcall o ho
  cases o <;> first | rfl | cases this

theorem wake_closeCalls (w : World) (work : Bool) :
    closeCalls (wake w work).1.log = closeCalls w.log := by
  rw [wake_eq]

theorem section_closeCalls {w : World} {r : World × Bool} (h : Section w r) :
    closeCalls r.1.log = closeCalls w.log := by
  cases h with
  | retimed h => exact h.closeCalls
  | timer h => rw [wake_closeCalls, h.closeCalls]
  | sent buff len last pos ho hs hm h =>
    rw [wake_closeCalls, h.closeCalls]
    exact closeCalls_note _ _ rfl
  | posted buff pos ho h =>
    rw [wake_closeCalls, h.closeCalls]
    exact closeCalls_note _ _ rfl
  | shutdown =>
    unfold markShutdown
    dsimp only
    split
    · exact closeCalls_note _ _ rfl
    · rfl
  | closed ho h => exact (closeCalls_note _ _ rfl).trans h.closeCalls
  | set | started | arrive | writable => rfl

def Quenched (w : World) : Prop := w.sock.sendTimeout = 0 ∧ w.sock.recvTimeout = 0

theorem Retimed.quenched {w w' : World} (h : Retimed w w') (hc : w.sock.closed = true)
    (hq : Quenched w) : Quenched w' :=
  ⟨(h.late hc).1.trans hq.1, (h.late hc).2.trans hq.2⟩

theorem section_late {w : World} {r : World × Bool} (h : Section w r)
    (hc : w.sock.closed = true) (hq : Quenched w) :
    r.2 = false ∧ r.1.sock.closed = true ∧ Quenched r.1 := by
  cases h with
  | retimed h => exact ⟨rfl, h.closed.trans hc, h.quenched hc hq⟩
  | timer h due =>
    rcases due with due | due
    · rw [hq.1] at due; exact absurd due (by decide)
    · rw [hq.2] at due; exact absurd due (by decide)
  | sent buff len last pos ho => cases ho.symm.trans hc
  | posted buff pos ho => cases ho.symm.trans hc
  | shutdown ho => cases ho.symm.trans hc
  | closed ho => cases ho.symm.trans hc
  | set | started | arrive | writable => exact ⟨rfl, hc, hq⟩

/-- A section that closes the socket posts at most one task, and only where none exists. -/
theorem section_closes {w : World} {r : World × Bool} (h : Section w r)
    (ho : w.sock.closed = false) (hc : r.1.sock.closed = true) :
    w.sock.doing.toNat + r.2.toNat ≤ 1 ∧ Quenched r.1 := by
  cases h with
  | retimed h => cases (h.closed.trans ho).symm.trans hc
  | timer h => rw [wake_eq] at hc; cases (h.closed.trans ho).symm.trans hc
  | sent buff len last pos _ hs hm h =>
    rw [wake_eq] at hc; cases (h.closed.trans ho).symm.trans hc
  | posted buff pos _ h => rw [wake_eq] at hc; cases (h.closed.trans ho).symm.trans hc
  | shutdown =>
    have : (markShutdown w).sock.closed = w.sock.closed := by rw [markShutdown_sock]
    cases (this.trans ho).symm.trans hc
  | closed _ h hs hr =>
    have atMost : ∀ d c : Bool, d.toNat + (c && !d).toNat ≤ 1 := by decide
    exact ⟨atMost _ _, hs, hr⟩
  | set | started | arrive | writable => cases ho.symm.trans hc

/-! ## Moves of the worker -/

theorem noteReceived_closeCalls (w : World) (cb : Option Callback) (buff : RecvBuffer)
    (n : ℕ) : closeCalls (noteReceived w cb buff n).log = closeCalls w.log := by
  cases cb with
  | none => rfl
  | some cb => exact closeCalls_note _ _ rfl

/-- Only a task that has decided to close calls the close callback. -/
theorem move_closeCalls {w : World} {pc : DoPc} {o : Outcome} (h : Move w pc o)
    (hpc : pc.closes = false) : closeCalls o.world.log = closeCalls w.log := by
  cases h with
  | quiet _ _ h => exact h.closeCalls
  | idle _ h => exact h.closeCalls
  | leave _ h => exact h.closeCalls
  | readOk => exact closeCalls_note _ _ rfl
  | deliverFront => exact noteReceived_closeCalls _ _ _ _
  | deliverList => exact noteReceived_closeCalls _ _ _ _
  | closing => exact section_closeCalls (close_section w)
  | writevAll => exact closeCalls_note _ _ rfl
  | writevPart => exact closeCalls_note _ _ rfl
  | writevError => exact closeCalls_note _ _ rfl
  | writtenOk last put =>
    obtain ⟨l, act, hf, hl⟩ := flushed_eq _ _ _
    rw [hf]
    exact closeCalls_append _ _ fun o ho => by rw [hl o ho]; rfl
  | doClose | closeCallback | noCallback => cases hpc
  | _ => rfl

/-- A task goes on and calls nothing, or it ends and has called the callback at most once. -/
theorem move_calls {w : World} {pc : DoPc} {o : Outcome} (h : Move w pc o) :
    o.next.isSome.toNat + closeCalls o.world.log ≤ 1 + closeCalls w.log := by
  cases hpc : pc.closes with
  | false =>
    have := move_closeCalls h hpc
    have := Bool.toNat_le o.next.isSome
    omega
  | true =>
    cases h with
    | quiet hq => rw [DoPc.quiet_not_closes hq] at hpc; cases hpc
    | idle hq => rw [DoPc.quiet_not_closes hq] at hpc; cases hpc
    | leave hq => rw [DoPc.quiet_not_closes hq] at hpc; cases hpc
    | closing hq => rw [DoPc.quiet_not_closes hq] at hpc; cases hpc
    | doClose => exact Nat.le_refl _
    | closeCallback cb => simp [World.note, closeCalls, Obs.isClose, Nat.add_comm]
    | noCallback => simp
    | _ => cases hpc

theorem move_late {w : World} {pc : DoPc} {o : Outcome} (h : Move w pc o)
    (hc : w.sock.closed = true) (hq : Quenched w) : o.post = false ∧ Quenched o.world := by
  rcases move_frame h with ⟨hpost, -, hsame⟩ | ⟨-, _, rfl⟩
  · exact ⟨hpost, (hsame hc).1.trans hq.1, (hsame hc).2.trans hq.2⟩
  · obtain ⟨hpost, -, hq'⟩ := section_late (close_section w) hc hq
    exact ⟨hpost, hq'⟩

/-- A running task keeps the `Close` it calls from posting another. -/
theorem move_closes {w : World} {pc : DoPc} {o : Outcome} (h : Move w pc o)
    (ho : w.sock.closed = false) (hc : o.world.sock.closed = true) (hd : w.sock.doing = true) :
    pc.closes = false ∧ o.post = false ∧ Quenched o.world := by
  rcases move_frame h with ⟨-, hsame, -⟩ | ⟨hquiet, _, rfl⟩
  · cases (hsame.trans ho).symm.trans hc
  · obtain ⟨hle, hq⟩ := section_closes (close_section w) ho hc
    rw [hd, Bool.toNat_true] at hle
    refine ⟨DoPc.quiet_not_closes hquiet, ?_, hq⟩
    cases hp : (close w).2
    · rfl
    · rw [hp, Bool.toNat_true] at hle; omega

/-! ## Runs without a late event -/

def lateEvent (s : Sys) : Label → Bool
  | .onActive err =>
    match s.poller with
    | .locking event =>
      s.world.sock.closed && !s.world.sock.doing && (s.world.sock.setReady event err).canRead &&
        decide (0 < s.tasks.length + s.posting + closeCalls s.world.log)
    | _ => false
  | _ => false

structure CallsOnce (s : Sys) : Prop where
  opened : s.world.sock.closed = false → closeCalls s.world.log = 0
  closed : s.world.sock.closed = true →
    s.tasks.length + s.posting + closeCalls s.world.log ≤ 1 ∧ Quenched s.world

theorem CallsOnce.apiCall {s : Sys} {r : World × Bool} (inv : CallsOnce s)
    (one : s.world.sock.closed = false → OneWorker s) (h : Section s.world r) :
    CallsOnce (s.unlock r) := by
  have hcalls := section_closeCalls h
  cases hc : s.world.sock.closed with
  | false =>
    have hzero := inv.opened hc
    refine ⟨fun _ => hcalls.trans hzero, fun hc' => ?_⟩
    obtain ⟨hpost, hq⟩ := section_closes h hc hc'
    have := (one hc).count
    refine ⟨?_, hq⟩
    simp only [Sys.unlock]
    omega
  | true =>
    obtain ⟨hle, hq⟩ := inv.closed hc
    obtain ⟨hpost, hc', hq'⟩ := section_late h hc hq
    refine ⟨fun ho => absurd (ho.symm.trans hc') Bool.false_ne_true, fun _ => ⟨?_, hq'⟩⟩
    · simp only [Sys.unlock, hpost, hcalls, Bool.toNat_false]
      exact hle

theorem CallsOnce.onActive {s : Sys} {event : Event} {err : ℤ} (inv : CallsOnce s)
    (locking : s.poller = .locking event) (onTime : lateEvent s (.onActive err) = false) :
    CallsOnce { s.unlock (onActive s.world event err) with poller := .idle } := by
  obtain ⟨hclosed, hdoing⟩ := setReady_frame s.world.sock event err
  have htimes := setReady_timeouts s.world.sock event err
  simp only [TCPSocket.onActive, wake_eq]
  refine ⟨fun ho => inv.opened (hclosed.symm.trans ho), fun hc => ?_⟩
  have hc' : s.world.sock.closed = true := hclosed.symm.trans hc
  obtain ⟨hle, hq⟩ := inv.closed hc'
  refine ⟨?_, by rw [Quenched, htimes]; exact hq⟩
  have hcw : (s.world.sock.setReady event err).canWrite = false := by
    simp [canWrite, hclosed, hc']
  simp only [Sys.unlock, hcw, Bool.or_false, hdoing]
  by_cases hposts : (!s.world.sock.doing && (s.world.sock.setReady event err).canRead) = true
  · -- the event posts, so by assumption it finds neither a task nor a call
    simp only [Bool.and_eq_true, Bool.not_eq_true'] at hposts
    have hnone : s.tasks.length + s.posting + closeCalls s.world.log = 0 := by
      simpa [lateEvent, locking, hc', hposts.1, hposts.2] using onTime
    have := Bool.toNat_le (!s.world.sock.doing && (s.world.sock.setReady event err).canRead)
    omega
  · rw [Bool.not_eq_true] at hposts
    rw [hposts, Bool.toNat_false]
    exact hle

theorem CallsOnce.worker {s : Sys} {k : ℕ} {pc : DoPc} {o : Outcome} (inv : CallsOnce s)
    (one : s.world.sock.closed = false → OneWorker s) (at_ : s.tasks[k]? = some pc)
    (move : Move s.world pc o) : CallsOnce (s.resume k o) := by
  obtain ⟨hk, -⟩ := List.getElem?_eq_some_iff.mp at_
  have hcount : (s.resume k o).tasks.length + 1 = s.tasks.length + o.next.isSome.toNat := by
    cases hn : o.next with
    | some pc' => simp [Sys.resume, hn]
    | none => simp only [Sys.resume, hn, List.length_eraseIdx_of_lt hk]; simp; omega
  have hcalls := move_calls move
  cases hc : s.world.sock.closed with
  | true =>
    obtain ⟨hle, hq⟩ := inv.closed hc
    obtain ⟨hpost, hq'⟩ := move_late move hc hq
    have hc' := move_closed move hc
    refine ⟨fun ho => absurd (ho.symm.trans hc') Bool.false_ne_true, fun _ => ⟨?_, hq'⟩⟩
    simp only [Sys.resume, hpost, Bool.toNat_false] at hcount ⊢
    omega
  | false =>
    have hone := one hc
    have hzero := inv.opened hc
    have hsame := move_closeCalls move (hone.live pc (List.mem_of_getElem? at_))
    refine ⟨fun _ => hsame.trans hzero, fun hc' => ?_⟩
    have hd : s.world.sock.doing = true := hone.busy_of_task hk
    obtain ⟨-, hpost, hq⟩ := move_closes move hc hc' hd
    have hdoing := hone.count
    rw [hd, Bool.toNat_true] at hdoing
    refine ⟨?_, hq⟩
    have hlog : closeCalls (s.resume k o).world.log = 0 := hsame.trans hzero
    rw [hlog]
    simp only [Sys.resume, hpost, Bool.toNat_false] at hcount ⊢
    have := Bool.toNat_le o.next.isSome
    omega

theorem callsOnce_step {s s' : Sys} {a : Label} (h : Stepped s a s') (inv : CallsOnce s)
    (one : s.world.sock.closed = false → OneWorker s) (onTime : lateEvent s a = false) :
    CallsOnce s' := by
  cases h with
  | apiCall h => exact inv.apiCall one h
  | collect event idle => exact ⟨inv.opened, inv.closed⟩
  | disable entered => exact ⟨inv.opened, inv.closed⟩
  | onActive err locking => exact inv.onActive locking onTime
  | post pos =>
    refine ⟨inv.opened, fun hc => ?_⟩
    obtain ⟨hle, hq⟩ := inv.closed hc
    refine ⟨?_, hq⟩
    simp only [List.length_append, List.length_singleton]
    omega
  | worker at_ move => exact inv.worker one at_ move

/-- Where no event reaches `OnActive` too late, the close callback is called at most once. -/
theorem close_callback_at_most_once {b : Build} {s : Sys}
    (h : Machine.Runs (step b) (fun s a => lateEvent s a = false) Sys.init s) :
    closeCalls s.world.log ≤ 1 := by
  have inv : CallsOnce s := by
    refine h.invariant (I := CallsOnce) ⟨fun _ => rfl, fun hc => by cases hc⟩ ?_
    intro u v a run inv onTime hstep
    exact callsOnce_step (step_stepped hstep) inv (reachable_oneWorker run.reaches) onTime
  cases hc : s.world.sock.closed with
  | false => rw [inv.opened hc]; exact Nat.zero_le 1
  | true =>
    have := (inv.closed hc).1
    omega

def onTimeRun : List Label :=
  [.start, .setCloseCallback (some 2), .arrive [7] false, .collect ⟨true, false, false⟩, .disable,
    .onActive 0, .close, .post, .worker 0 .again, .worker 0 .again, .worker 0 .again,
    .worker 0 .again]

theorem close_callback_at_most_once_once : ∃ s : Sys,
    Machine.exec (Machine.guarded (fun s a => !lateEvent s a) (step ⟨false⟩)) Sys.init onTimeRun =
      some s ∧ closeCalls s.world.log = 1 ∧ closeCalls s.world.log ≤ 1 := by
  have h : (Machine.exec (Machine.guarded (fun s a => !lateEvent s a) (step ⟨false⟩)) Sys.init
      onTimeRun).map (closeCalls ·.world.log) = some 1 := rfl
  obtain ⟨s, hs, hcalls⟩ := Option.map_eq_some_iff.mp h
  exact ⟨s, hs, hcalls, close_callback_at_most_once (b := ⟨false⟩) (.avoiding onTimeRun hs)⟩

def lateRun : List Label :=
  [.start, .setRecvCallback (some 1), .setCloseCallback (some 2), .recv (some ⟨0, 0, 2⟩),
    .arrive [7] false, .collect ⟨true, false, false⟩, .close, .disable, .onActive 0, .post, .post,
    .worker 0 .again, .worker 0 .again, .worker 0 .again, .worker 0 .again, .worker 0 .again,
    .worker 0 .again, .worker 0 .again, .worker 0 .again]

theorem close_callback_twice : ∃ s : Sys,
    Machine.exec (step ⟨false⟩) Sys.init lateRun = some s ∧ Reachable ⟨false⟩ s ∧
    closeCalls s.world.log = 2 := by
  have h : (Machine.exec (step ⟨false⟩) Sys.init lateRun).map (closeCalls ·.world.log) = some 2 :=
    rfl
  obtain ⟨s, hs, hcalls⟩ := Option.map_eq_some_iff.mp h
  exact ⟨s, hs, Machine.Reaches.of_exec lateRun hs, hcalls⟩

end Hwnet.TCPSocket
