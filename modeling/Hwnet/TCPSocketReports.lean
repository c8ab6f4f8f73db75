import Hwnet.TCPSocketTimeouts

set_option autoImplicit false

/-!
# One report for each registration

Beside the socket runs a registry: it numbers the registrations of timeout callbacks, knows the
one in force on each side, and notes at every call of a timeout callback which one that was.
-/
namespace Hwnet.TCPSocket

abbrev Registration := ℕ × Callback

structure Registry where
  current : Side → Option Registration
  count : ℕ
  called : List (Option Registration × Callback)

namespace Registry

def empty : Registry := ⟨fun _ => none, 0, []⟩

/-- A timeout of 0 or an empty callback takes the registration back. -/
def set (r : Registry) (side : Side) (timeout : UInt64) (cb : Option Callback) : Registry :=
  match cb with
  | some cb =>
    if 0 < timeout then
      { r with
        current := Function.update r.current side (some (r.count, cb)), count := r.count + 1 }
    else { r with current := Function.update r.current side none }
  | none => { r with current := Function.update r.current side none }

def note (r : Registry) (reports : List (Side × Callback)) : Registry :=
  { r with called := r.called ++ reports.map fun c => (r.current c.1, c.2) }

def heard (r : Registry) (s : Sys) : Label → Registry
  | .setSendTimeoutCallback timeout cb =>
    if s.world.sock.closed then r else r.set .send timeout cb
  | .setRecvTimeoutCallback timeout cb =>
    if s.world.sock.closed then r else r.set .recv timeout cb
  | _ => r

def after (r : Registry) (s : Sys) (a : Label) (s' : Sys) : Registry :=
  (r.heard s a).note
    ((timeoutReports s'.world.log).drop (timeoutReports s.world.log).length)

end Registry

/-- The socket and its registry. -/
def registering (b : Build) (x : Sys × Registry) (a : Label) : Option (Sys × Registry) :=
  (step b x.1 a).map fun s' => (s', x.2.after x.1 a s')

/-! ## What a step reports -/

structure Quiet (w w' : World) : Prop where
  reports : timeoutReports w'.log = timeoutReports w.log
  timeout : w'.timeout = w.timeout
  callback : w'.timeoutCallback = w.timeoutCallback

structure Claimed (w : World) (side : Side) (cb : Callback) (w' : World) : Prop where
  opened : w.sock.closed = false
  due : w.expired side = true
  current : w.timeoutCallback side = some cb
  reports : timeoutReports w'.log = timeoutReports w.log ++ [(side, cb)]
  claimed : w'.timeout side = 0
  other : w'.timeout side.other = w.timeout side.other
  callback : w'.timeoutCallback side.other = w.timeoutCallback side.other

theorem Still.quiet {w w' : World} (h : Still w w') : Quiet w w' :=
  ⟨h.reports, h.timeout, h.timeoutCallback⟩

theorem Quiet.trans {w w' w'' : World} (h : Quiet w w') (h' : Quiet w' w'') : Quiet w w'' :=
  ⟨h'.reports.trans h.reports, h'.timeout.trans h.timeout, h'.callback.trans h.callback⟩

/-- The two durations, the two callbacks and the log decide what is quiet. -/
theorem quiet_of_same {w w' : World} (log : w'.log = w.log)
    (send : w'.sock.sendTimeout = w.sock.sendTimeout)
    (recv : w'.sock.recvTimeout = w.sock.recvTimeout)
    (sendCb : w'.sock.sendTimeoutCallback = w.sock.sendTimeoutCallback)
    (recvCb : w'.sock.recvTimeoutCallback = w.sock.recvTimeoutCallback) : Quiet w w' := by
  refine ⟨by rw [log], ?_, ?_⟩
  · funext side
    cases side
    · exact send
    · exact recv
  · funext side
    cases side
    · exact sendCb
    · exact recvCb

theorem evaluate_quiet (w : World) (i : ℕ) : Quiet w (evaluate w i).world := by
  have h := evaluate_evaluated w i
  generalize evaluate w i = o at h
  cases h <;> exact quiet_of_same rfl rfl rfl rfl rfl

theorem register_quiet (w : World) (side : Side) : Quiet w (w.register side) := by
  rw [World.register_eq]
  split
  · cases side <;> exact quiet_of_same rfl rfl rfl rfl rfl
  · exact quiet_of_same rfl rfl rfl rfl rfl

theorem watch_quiet (w : World) (side : Side) : Quiet w (w.watch side) := by
  unfold World.watch
  split
  · exact register_quiet w side
  · exact quiet_of_same rfl rfl rfl rfl rfl

theorem Pushed.quiet {side : Side} {w w' : World} (h : Pushed side w w') : Quiet w w' := by
  refine ⟨h.reports, ?_, ?_⟩
  · funext side'
    cases side'
    · exact congrArg Timeouts.sendTimeout h.timeouts
    · exact congrArg Timeouts.recvTimeout h.timeouts
  · funext side'
    cases side'
    · exact congrArg Timeouts.sendTimeoutCallback h.timeouts
    · exact congrArg Timeouts.recvTimeoutCallback h.timeouts

theorem timeoutReports_append (log l : List Obs) :
    timeoutReports (log ++ l) = timeoutReports log ++ timeoutReports l := List.flatMap_append

theorem locked_reports {w : World} {i : ℕ} {ts : List TimerId} {o : Outcome}
    (h : Locked w i ts o) : Quiet w o.world ∨ ∃ side cb, Claimed w side cb o.world := by
  cases h with
  | @claimSend t cb known opened due current =>
    exact .inr ⟨.send, cb, opened, due, current, timeoutReports_append _ _, rfl, rfl, rfl⟩
  | @claimRecv t cb known opened due current =>
    exact .inr ⟨.recv, cb, opened, due, current, timeoutReports_append _ _, rfl, rfl, rfl⟩
  | release =>
    refine .inl (Quiet.trans ?_ (evaluate_quiet _ i))
    exact quiet_of_same rfl rfl rfl rfl rfl
  | keep => exact .inl (evaluate_quiet w i)

theorem Touched.quiet {w : World} {pc : DoPc} {o : Outcome} (h : Touched w pc o) :
    Quiet w o.world := by
  have same : (pc.touched w).sendTimeout = w.sock.sendTimeout ∧
      (pc.touched w).recvTimeout = w.sock.recvTimeout ∧
      (pc.touched w).sendTimeoutCallback = w.sock.sendTimeoutCallback ∧
      (pc.touched w).recvTimeoutCallback = w.sock.recvTimeoutCallback := by
    unfold DoPc.touched
    split <;> exact ⟨rfl, rfl, rfl, rfl⟩
  refine ⟨h.reports, ?_, ?_⟩
  · funext side
    cases side
    · exact (congrArg Timeouts.sendTimeout h.timeouts).trans same.1
    · exact (congrArg Timeouts.recvTimeout h.timeouts).trans same.2.1
  · funext side
    cases side
    · exact (congrArg Timeouts.sendTimeoutCallback h.timeouts).trans same.2.2.1
    · exact (congrArg Timeouts.recvTimeoutCallback h.timeouts).trans same.2.2.2

theorem cancelTimer_reports (w : World) :
    timeoutReports (cancelTimer w).log = timeoutReports w.log := by
  unfold cancelTimer
  split <;> rfl

theorem close_reports (w : World) : timeoutReports (close w).1.log = timeoutReports w.log := by
  unfold close
  split
  · rfl
  · refine (timeoutReports_timely _ _ fun x hx => ?_).trans (cancelTimer_reports w)
    rw [List.mem_singleton.mp hx]
    rfl

structure Reset (w : World) (side : Side) (timeout : UInt64) (cb : Option Callback) (w' : World) :
    Prop where
  reports : timeoutReports w'.log = timeoutReports w.log
  on : 0 < w'.timeout side → 0 < timeout ∧ cb.isSome = true ∧ w'.timeoutCallback side = cb
  other : w'.timeout side.other = w.timeout side.other
  callback : w'.timeoutCallback side.other = w.timeoutCallback side.other

theorem Reset.quiet {w w' w'' : World} {side : Side} {timeout : UInt64} {cb : Option Callback}
    (h : Reset w side timeout cb w') (h' : Quiet w' w'') : Reset w side timeout cb w'' := by
  refine ⟨h'.reports.trans h.reports, fun on => ?_, ?_, ?_⟩
  · rw [h'.timeout] at on
    rw [h'.callback]
    exact h.on on
  · rw [h'.timeout]
    exact h.other
  · rw [h'.callback]
    exact h.callback

theorem cancelTimer_quiet (w : World) : Quiet w (cancelTimer w) := by
  unfold cancelTimer
  split <;> exact quiet_of_same rfl rfl rfl rfl rfl

theorem setTimeoutCallback_reset {w : World} (opened : w.sock.closed = false) (side : Side)
    (timeout : UInt64) (cb : Option Callback) :
    Reset w side timeout cb (w.setTimeoutCallback timeout cb side) := by
  have off : Reset w side timeout cb (w.setTimeout 0 none side) := by
    cases side <;> exact ⟨rfl, fun on => absurd on (show ¬ (0 : UInt64) < 0 by decide), rfl, rfl⟩
  rw [World.setTimeoutCallback_eq, if_neg (by rw [opened]; decide)]
  split
  · rename_i on
    refine Reset.quiet ?_ (register_quiet _ side)
    cases side <;> exact ⟨rfl, fun _ => ⟨on.1, on.2, rfl⟩, rfl, rfl⟩
  · split
    · exact off.quiet (cancelTimer_quiet _)
    · exact off

inductive Reported (s : Sys) : Label → Sys → Prop where
  | quiet {a : Label} {s' : Sys} (heard : ∀ r : Registry, r.heard s a = r)
      (closed : s.world.sock.closed = true → s'.world.sock.closed = true)
      (h : Quiet s.world s'.world) : Reported s a s'
  | closes {a : Label} {s' : Sys} (heard : ∀ r : Registry, r.heard s a = r)
      (closed : s'.world.sock.closed = true)
      (reports : timeoutReports s'.world.log = timeoutReports s.world.log) : Reported s a s'
  | set (side : Side) {timeout : UInt64} {cb : Option Callback} {s' : Sys}
      (opened : s.world.sock.closed = false) (h : Reset s.world side timeout cb s'.world) :
      Reported s (side.label timeout cb) s'
  | claimed {k : ℕ} {io : Io} {side : Side} {cb : Callback} {s' : Sys}
      (h : Claimed s.world side cb s'.world) : Reported s (.worker k io) s'

theorem heard_untimed {a : Label} (h : a.untimed = true) (r : Registry) (s : Sys) :
    r.heard s a = r := by
  cases a <;> first | rfl | cases h

theorem clocked_reported {b : Build} {s s' : Sys} {a : Label} (h : Clocked b s a s') :
    Reported s a s' := by
  cases h with
  | still caller hstill =>
    exact .quiet (fun r => heard_untimed caller r s) hstill.closed.trans hstill.quiet
  | tick d => exact .quiet (fun r => rfl) id (quiet_of_same rfl rfl rfl rfl rfl)
  | @fired t added =>
    refine .quiet (fun r => rfl) (fun h => ?_) ?_
    · show (onTimer s.world t).1.sock.closed = true
      rw [onTimer_world]
      exact h
    · show Quiet s.world (onTimer s.world t).1
      rw [onTimer_world]
      exact quiet_of_same rfl rfl rfl rfl rfl
  | @set side timeout cb =>
    cases hc : s.world.sock.closed with
    | false => exact .set side hc (setTimeoutCallback_reset hc side timeout cb)
    | true =>
      have hsame : s.world.setTimeoutCallback timeout cb side = s.world := by
        rw [World.setTimeoutCallback_eq, if_pos hc]
      refine .closes (fun r => ?_) ?_ ?_
      · cases side <;> exact if_pos hc
      · rw [Sys.lift, hsame]
        exact hc
      · rw [Sys.lift, hsame]
  | pushed side caller hopen push hstill =>
    refine .quiet (fun r => heard_untimed caller r s) (fun h => ?_)
      ((push.quiet.trans (watch_quiet _ side)).trans hstill.quiet)
    cases hopen.symm.trans h
  | closed _ hs =>
    subst hs
    exact .closes (fun r => rfl) (close_closed _) (close_reports _)
  | @worker k io pc o at_ run =>
    have closed (hc : s.world.sock.closed = true) : (s.resume k o).world.sock.closed = true :=
      move_closed (doStep_move run) hc
    cases pass : pc.passes with
    | some i =>
      have entered : Quiet s.world (pc.entered s.world) := by
        cases pc <;> exact quiet_of_same rfl rfl rfl rfl rfl
      have sameOpen : (pc.entered s.world).sock.closed = s.world.sock.closed := by
        cases pc <;> rfl
      have sameDue (side : Side) : (pc.entered s.world).expired side = s.world.expired side := by
        cases pc <;> cases side <;> rfl
      rcases locked_reports (doStep_locked run pass) with h | ⟨side, cb, h⟩
      · exact .quiet (fun r => rfl) closed (entered.trans h)
      · have hclaimed : Claimed s.world side cb (s.resume k o).world := by
          refine ⟨sameOpen ▸ h.opened, sameDue side ▸ h.due, entered.callback ▸ h.current,
            entered.reports ▸ h.reports, h.claimed, ?_, ?_⟩
          · rw [← entered.timeout]
            exact h.other
          · rw [← entered.callback]
            exact h.callback
        exact .claimed hclaimed
    | none =>
      rcases doStep_touched run pass with h | ⟨pc', -, -, rfl⟩
      · exact .quiet (fun r => rfl) closed h.quiet
      · exact .closes (fun r => rfl) (close_closed _) (close_reports _)

/-! ## Once for each registration -/

def Registry.reported (r : Registry) : List (Option Registration) := r.called.map Prod.fst

/-- The registration in force on a side whose timeout is on has not been reported, and every report
was of the registration then in force. -/
structure Once (s : Sys) (r : Registry) : Prop where
  issued : ∀ side, ∀ x ∈ r.current side, x.1 < r.count
  apart : ∀ x ∈ r.current .send, ∀ y ∈ r.current .recv, x.1 ≠ y.1
  called : ∀ c ∈ r.called, ∃ n, c.1 = some (n, c.2) ∧ n < r.count
  nodup : r.reported.Nodup
  armed : s.world.sock.closed = false → ∀ side, 0 < s.world.timeout side →
    ∃ x, r.current side = some x ∧ s.world.timeoutCallback side = some x.2 ∧
      some x ∉ r.reported

theorem Once.init : Once Sys.init .empty where
  issued := fun _ _ h => by cases h
  apart := fun _ h => by cases h
  called := fun _ h => by cases h
  nodup := List.nodup_nil
  armed := fun _ side on => by
    cases side <;> exact absurd on (show ¬ (0 : UInt64) < 0 by decide)

theorem note_nil (r : Registry) : r.note [] = r := by
  simp [Registry.note]

/-- A step that reports nothing leaves the registry as the label has made it. -/
theorem after_silent {r : Registry} {s s' : Sys} {a : Label}
    (same : timeoutReports s'.world.log = timeoutReports s.world.log) :
    r.after s a s' = r.heard s a := by
  rw [Registry.after, same, List.drop_length, note_nil]

theorem Registry.current_apart {r : Registry} {s : Sys} (inv : Once s r) {side : Side}
    {x y : Registration} (hx : r.current side = some x) (hy : r.current side.other = some y) :
    x.1 ≠ y.1 := by
  cases side with
  | send => exact inv.apart x hx y hy
  | recv => exact fun h => inv.apart y hy x hx h.symm

theorem Once.quiet {s s' : Sys} {r : Registry} (inv : Once s r)
    (closed : s.world.sock.closed = true → s'.world.sock.closed = true)
    (h : Quiet s.world s'.world) : Once s' r := by
  refine ⟨inv.issued, inv.apart, inv.called, inv.nodup, fun opened side on => ?_⟩
  have opened' : s.world.sock.closed = false := by
    cases hc : s.world.sock.closed with
    | false => rfl
    | true => cases opened.symm.trans (closed hc)
  rw [h.timeout] at on
  rw [h.callback]
  exact inv.armed opened' side on

theorem set_on {r : Registry} {side : Side} {timeout : UInt64} {cb : Callback}
    (on : 0 < timeout) : r.set side timeout (some cb) =
      { r with current := Function.update r.current side (some (r.count, cb)),
               count := r.count + 1 } :=
  if_pos on

theorem set_off {r : Registry} {side : Side} {timeout : UInt64} {cb : Option Callback}
    (off : ¬ (0 < timeout ∧ cb.isSome = true)) :
    r.set side timeout cb = { r with current := Function.update r.current side none } := by
  cases cb with
  | none => rfl
  | some cb => exact if_neg fun h => off ⟨h, rfl⟩

theorem Once.armed_other {s s' : Sys} {r : Registry} {side : Side} {timeout : UInt64}
    {cb : Option Callback} (inv : Once s r) (opened : s.world.sock.closed = false)
    (h : Reset s.world side timeout cb s'.world) (next : Option Registration) {side' : Side}
    (ne : side' ≠ side) (on : 0 < s'.world.timeout side') :
    ∃ x, Function.update r.current side next side' = some x ∧
      s'.world.timeoutCallback side' = some x.2 ∧ some x ∉ r.reported := by
  obtain rfl := Side.eq_other ne
  rw [h.other] at on
  rw [h.callback, Function.update_of_ne side.other_ne]
  exact inv.armed opened side.other on

theorem Once.turnedOn {s s' : Sys} {r : Registry} {side : Side} {timeout : UInt64}
    {cb : Callback} (inv : Once s r) (opened : s.world.sock.closed = false)
    (h : Reset s.world side timeout (some cb) s'.world) :
    Once s' { r with current := Function.update r.current side (some (r.count, cb)),
                     count := r.count + 1 } := by
  have hself : Function.update r.current side (some (r.count, cb)) side = some (r.count, cb) :=
    Function.update_self _ _ _
  have fresh : some (r.count, cb) ∉ r.reported := by
    intro hmem
    obtain ⟨c, hc, heq⟩ := List.mem_map.mp hmem
    obtain ⟨n, hn, hlt⟩ := inv.called c hc
    rw [heq] at hn
    cases hn
    exact Nat.lt_irrefl _ hlt
  have hother {side' : Side} (ne : side' ≠ side) :
      Function.update r.current side (some (r.count, cb)) side' = r.current side' :=
    Function.update_of_ne ne _ _
  have issued (side' : Side) (x : Registration)
      (hx : Function.update r.current side (some (r.count, cb)) side' = some x) :
      x.1 < r.count + 1 := by
    by_cases hside : side' = side
    · rw [hside, hself] at hx
      cases hx
      exact Nat.lt_succ_self _
    · rw [hother hside] at hx
      exact Nat.lt_succ_of_lt (inv.issued _ x hx)
  refine ⟨issued, fun x hx y hy => ?_, fun c hc => ?_, inv.nodup, fun _ side' on => ?_⟩
  · -- the new number is above every number given out before
    cases side with
    | send =>
      have hy' : r.current .recv = some y := (hother (by decide)).symm.trans hy
      cases hself.symm.trans hx
      exact Nat.ne_of_gt (inv.issued _ y hy')
    | recv =>
      have hx' : r.current .send = some x := (hother (by decide)).symm.trans hx
      cases hself.symm.trans hy
      exact Nat.ne_of_lt (inv.issued _ x hx')
  · obtain ⟨n, hn, hlt⟩ := inv.called c hc
    exact ⟨n, hn, Nat.lt_succ_of_lt hlt⟩
  · by_cases hside : side' = side
    · subst hside
      exact ⟨_, hself, (h.on on).2.2, fresh⟩
    · exact inv.armed_other opened h _ hside on

theorem Once.turnedOff {s s' : Sys} {r : Registry} {side : Side} {timeout : UInt64}
    {cb : Option Callback} (inv : Once s r) (opened : s.world.sock.closed = false)
    (h : Reset s.world side timeout cb s'.world) (off : ¬ (0 < timeout ∧ cb.isSome = true)) :
    Once s' { r with current := Function.update r.current side none } := by
  have kept (side' : Side) (x : Registration)
      (hx : Function.update r.current side none side' = some x) : r.current side' = some x := by
    by_cases hside : side' = side
    · rw [hside, Function.update_self] at hx
      cases hx
    · rwa [Function.update_of_ne hside] at hx
  refine ⟨fun side' x hx => inv.issued side' x (kept side' x hx),
    fun x hx y hy => inv.apart x (kept _ x hx) y (kept _ y hy), inv.called, inv.nodup,
    fun _ side' on => ?_⟩
  by_cases hside : side' = side
  · rw [hside] at on
    exact absurd ⟨(h.on on).1, (h.on on).2.1⟩ off
  · exact inv.armed_other opened h _ hside on

theorem Once.set {s s' : Sys} {r : Registry} {side : Side} {timeout : UInt64}
    {cb : Option Callback} (inv : Once s r) (opened : s.world.sock.closed = false)
    (h : Reset s.world side timeout cb s'.world) : Once s' (r.set side timeout cb) := by
  by_cases on : 0 < timeout ∧ cb.isSome = true
  · obtain ⟨cb, rfl⟩ := Option.isSome_iff_exists.mp on.2
    rw [set_on on.1]
    exact inv.turnedOn opened h
  · rw [set_off on]
    exact inv.turnedOff opened h on

theorem Claimed.on {w w' : World} {side : Side} {cb : Callback} (h : Claimed w side cb w') :
    0 < w.timeout side ∧ w.queued side = true := by
  have due := h.due
  rw [World.expired_eq] at due
  simp only [Bool.and_eq_true, decide_eq_true_eq] at due
  exact ⟨due.1.1.1, due.1.2⟩

theorem Once.claims {s : Sys} {r : Registry} {w' : World} {side : Side} {cb : Callback}
    (inv : Once s r) (h : Claimed s.world side cb w') :
    ∃ n, r.current side = some (n, cb) ∧ some (n, cb) ∉ r.reported := by
  obtain ⟨⟨n, cb'⟩, hcur, hcb, hnew⟩ := inv.armed h.opened side h.on.1
  cases h.current.symm.trans hcb
  exact ⟨n, hcur, hnew⟩

theorem after_claimed {r : Registry} {s s' : Sys} {k : ℕ} {io : Io} {side : Side} {cb : Callback}
    (h : Claimed s.world side cb s'.world) : r.after s (.worker k io) s' =
      { r with called := r.called ++ [(r.current side, cb)] } := by
  rw [Registry.after, h.reports, List.drop_left]
  rfl

theorem Once.claimed {s s' : Sys} {r : Registry} {side : Side} {cb : Callback} (inv : Once s r)
    (h : Claimed s.world side cb s'.world) :
    Once s' { r with called := r.called ++ [(r.current side, cb)] } := by
  obtain ⟨n, hcur, hnew⟩ := inv.claims h
  have hreported : ({ r with called := r.called ++ [(r.current side, cb)] } : Registry).reported =
      r.reported ++ [some (n, cb)] := by
    simp [Registry.reported, hcur]
  refine ⟨inv.issued, inv.apart, fun c hc => ?_, ?_, fun _ side' on => ?_⟩
  · rcases List.mem_append.mp hc with hc | hc
    · exact inv.called c hc
    · rw [List.mem_singleton.mp hc]
      exact ⟨n, hcur, inv.issued side _ hcur⟩
  · rw [hreported]
    exact List.nodup_append.mpr ⟨inv.nodup, by simp, fun x hx y hy hxy => by
      rw [List.mem_singleton.mp hy] at hxy
      exact hnew (hxy ▸ hx)⟩
  · by_cases hside : side' = side
    · rw [hside, h.claimed] at on
      exact absurd on (by decide)
    · rw [Side.eq_other hside] at on ⊢
      rw [h.other] at on
      obtain ⟨x, hx, hcb, hx'⟩ := inv.armed h.opened side.other on
      refine ⟨x, hx, h.callback.trans hcb, fun hmem => ?_⟩
      rw [hreported] at hmem
      rcases List.mem_append.mp hmem with hmem | hmem
      · exact hx' hmem
      · have heq := Option.some.inj (List.mem_singleton.mp hmem)
        exact Registry.current_apart inv hcur hx (by rw [heq])

theorem once_step {b : Build} {s s' : Sys} {r : Registry} {a : Label} (inv : Once s r)
    (h : step b s a = some s') : Once s' (r.after s a s') := by
  cases clocked_reported (step_clocked h) with
  | quiet heard closed hquiet =>
    rw [after_silent hquiet.reports, heard]
    exact inv.quiet closed hquiet
  | closes heard closed reports =>
    rw [after_silent reports, heard]
    exact ⟨inv.issued, inv.apart, inv.called, inv.nodup, fun opened => by
      cases opened.symm.trans closed⟩
  | @set side timeout cb _ opened hreset =>
    have heard : r.heard s (side.label timeout cb) = r.set side timeout cb := by
      cases side <;> exact if_neg (by rw [opened]; decide)
    rw [after_silent hreset.reports, heard]
    exact inv.set opened hreset
  | claimed hclaimed =>
    rw [after_claimed hclaimed]
    exact inv.claimed hclaimed

theorem reachable_once {b : Build} {s : Sys} {r : Registry}
    (h : Machine.Reaches (registering b) (Sys.init, .empty) (s, r)) : Once s r := by
  refine h.invariant (I := fun x => Once x.1 x.2) Once.init fun u v a run inv _ hstep => ?_
  simp only [registering, Option.map_eq_some_iff] at hstep
  obtain ⟨s', hs', rfl⟩ := hstep
  exact once_step inv hs'

/-- In every run each call of a timeout callback reports a registration, with its own callback, and
none is reported twice. A step that calls one claims the registration in force, not yet reported,
on an open socket whose list is not empty. -/
theorem one_report_per_registration {b : Build} {s : Sys} {r : Registry}
    (h : Machine.Reaches (registering b) (Sys.init, .empty) (s, r)) :
    (∀ c ∈ r.called, ∃ n, c.1 = some (n, c.2)) ∧ (r.called.map Prod.fst).Nodup ∧
      ∀ a s', step b s a = some s' →
        timeoutReports s'.world.log = timeoutReports s.world.log ∨
        ∃ side cb n, timeoutReports s'.world.log = timeoutReports s.world.log ++ [(side, cb)] ∧
          s.world.sock.closed = false ∧ s.world.queued side = true ∧
          r.current side = some (n, cb) ∧ some (n, cb) ∉ r.called.map Prod.fst := by
  have inv := reachable_once h
  refine ⟨fun c hc => ?_, inv.nodup, fun a s' hstep => ?_⟩
  · obtain ⟨n, hn, -⟩ := inv.called c hc
    exact ⟨n, hn⟩
  · cases clocked_reported (step_clocked hstep) with
    | quiet _ _ hquiet => exact .inl hquiet.reports
    | closes _ _ reports => exact .inl reports
    | set _ _ hreset => exact .inl hreset.reports
    | @claimed k io side cb _ hclaimed =>
      obtain ⟨n, hcur, hnew⟩ := inv.claims hclaimed
      exact .inr ⟨side, cb, n, hclaimed.reports, hclaimed.opened, hclaimed.on.2, hcur, hnew⟩

def reregisterRun : List Label :=
  [.start, .send (some ⟨[7], 0, 1⟩) 0, .setSendTimeoutCallback 5 (some 9), .tick 6000000,
    .onTimer 0, .post, .worker 0 .again, .worker 0 .again, .setSendTimeoutCallback 5 (some 9),
    .worker 0 .again, .onTimer 0, .post, .worker 0 .again, .worker 0 .again]

theorem one_report_per_registration_twice : ∃ s r,
    Machine.exec (registering ⟨false⟩) (Sys.init, .empty) reregisterRun = some (s, r) ∧
    r.called = [(some (0, 9), 9), (some (1, 9), 9)] ∧ (r.called.map Prod.fst).Nodup := by
  have h : (Machine.exec (registering ⟨false⟩) (Sys.init, .empty) reregisterRun).map
      (fun x => x.2.called) = some [(some (0, 9), 9), (some (1, 9), 9)] := rfl
  obtain ⟨⟨s, r⟩, hs, hcalled⟩ := Option.map_eq_some_iff.mp h
  exact ⟨s, r, hs, hcalled,
    (one_report_per_registration (b := ⟨false⟩) (Machine.Reaches.of_exec _ hs)).2.1⟩

end Hwnet.TCPSocket
