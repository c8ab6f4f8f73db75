import Hwnet.TCPSocketFullWrite

set_option autoImplicit false

/-!
# Shutdown of the write side

Shutdown looks at the current send list only, and from then on nothing is sent. Data queued before
it stays in the list, and data the worker holds is cut off.
-/
namespace Hwnet.TCPSocket

/-! ## SHUT_WR after the data -/

/-- Every SHUT_WR came when all that had been accepted was written. -/
def AfterData (log : List Obs) : Prop :=
  ∀ i, log[i]? = some .shutdownWrite → acceptedBytes (log.take i) = writtenBytes (log.take i)

variable {log l : List Obs}

/-- An entry of a log that has grown is an old one, or it is new. -/
theorem getElem?_grown {i : ℕ} {o : Obs} (h : (log ++ l)[i]? = some o) :
    log[i]? = some o ∧ (log ++ l).take i = log.take i ∨ o ∈ l ∧ log.length ≤ i := by
  by_cases hi : i < log.length
  · left
    rw [List.getElem?_append_left hi] at h
    exact ⟨h, List.take_append_of_le_length (Nat.le_of_lt hi)⟩
  · right
    rw [List.getElem?_append_right (Nat.not_lt.mp hi)] at h
    exact ⟨List.mem_of_getElem? h, Nat.not_lt.mp hi⟩

theorem AfterData.append (h : AfterData log) (none : .shutdownWrite ∉ l) :
    AfterData (log ++ l) := by
  intro i hi
  rcases getElem?_grown hi with ⟨hold, htake⟩ | ⟨hnew, -⟩
  · rw [htake]
    exact h i hold
  · exact absurd hnew none

theorem AfterData.shutdown (h : AfterData log) (all : acceptedBytes log = writtenBytes log) :
    AfterData (log ++ [.shutdownWrite]) := by
  intro i hi
  rcases getElem?_grown hi with ⟨hold, htake⟩ | ⟨-, hlen⟩
  · rw [htake]
    exact h i hold
  · have hbound := (List.getElem?_eq_some_iff.mp hi).1
    rw [List.length_append, List.length_singleton] at hbound
    have hend : i = log.length := by omega
    rw [hend, List.take_left']
    · exact all
    · rfl

theorem Aside.afterData {w w' : World} (h : Aside w w') (inv : AfterData w.log) :
    AfterData w'.log := by
  obtain ⟨l, hl, hf⟩ := h.log
  rw [hl]
  refine inv.append fun hmem => ?_
  cases hf _ hmem

/-- Shutdown takes effect and finds the current list empty while the other one is not. -/
def cutsOff (s : Sys) : Label → Bool
  | .shutdown =>
    !s.world.sock.closed && !s.world.sock.shutdown && s.world.sock.ptrSendlist.isEmpty &&
      !(s.world.sock.sendLists (flip s.world.sock.slistIdx)).isEmpty
  | _ => false

theorem writes_afterData {s : Sys} {pc : DoPc} {o : Outcome} (inv : AfterData s.world.log)
    (unsent : Unsent s) (unsent' : Unsent (s.resume 0 o)) (one : s.tasks = [pc])
    (sends : pc.sends = true) (move : Move s.world pc o) : AfterData o.world.log := by
  cases hpending : pc.unaccounted with
  | true =>
    obtain ⟨i, j, ver, n, total, null, rfl⟩ := unaccounted_eq hpending
    obtain ⟨-, -, -, -, hempty, hmore⟩ := move_followUp move
    obtain ⟨hacc, hwritten⟩ := written_accepted move
    by_cases hlist : o.world.sock.ptrSendlist = []
    · have hall := (unsent.rest unsent' one move).sent_iff.mp hlist
      rw [hacc, hwritten] at hall
      rw [(hempty hlist).1]
      split
      · exact inv.shutdown hall
      · rw [List.append_nil]
        exact inv
    · rw [(hmore hlist).1]
      exact inv
  | false =>
    have noted {o : Obs} (ho : o ≠ .shutdownWrite) : AfterData (s.world.note o).log :=
      inv.append fun hmem => ho (List.mem_singleton.mp hmem).symm
    cases move with
    | writevAll | writevPart | writevError => exact noted (by simp)
    | writtenOk => cases hpending
    | quiet hq | idle hq | leave hq | closing hq => exact absurd hq (DoPc.sends_not_quiet sends)
    | _ => first | exact inv | cases sends

theorem markShutdown_afterData {s : Sys} (inv : AfterData s.world.log) (unsent : Unsent s)
    (opened : s.world.sock.closed = false) (write : s.world.sock.shutdown = false)
    (whole : cutsOff s .shutdown = false) : AfterData (markShutdown s.world).log := by
  unfold markShutdown
  dsimp only
  split
  · rename_i hempty
    have hcur : s.world.sock.ptrSendlist = [] := List.isEmpty_iff.mp hempty
    have hother : s.world.sock.sendLists (flip s.world.sock.slistIdx) = [] := by
      simpa [cutsOff, opened, write, hcur] using whole
    have hwhole := unsent.whole
    have hnone : listBytes [] = [] := rfl
    rw [hother, hcur, hnone, List.drop_nil, List.append_nil, List.append_nil] at hwhole
    exact inv.shutdown hwhole.symm
  · exact inv

theorem afterData_step {s s' : Sys} {a : Label} (h : SendStep s a s')
    (inv : AfterData s.world.log) (unsent : Unsent s ∨ Late s) (alone' : Alone s')
    (whole : cutsOff s a = false) : AfterData s'.world.log := by
  cases h with
  | aside world away tasks closing => exact world.afterData inv
  | sent caller buff len last pos opened write more world tasks =>
    exact world.afterData (inv.append (l := [.accepted _]) (by simp))
  | shutdown opened write =>
    rcases unsent with unsent | late
    · exact markShutdown_afterData inv unsent opened write whole
    · cases opened.symm.trans late.closed
  | take at_ can => exact inv
  | writes at_ sends move =>
    obtain ⟨rfl, hone, unsent, unsent'⟩ := writes_unsent unsent alone' at_ sends move
    exact writes_afterData inv unsent unsent' hone sends move
  | calls at_ => exact inv.append (l := [.flushCallback _]) (by simp)
  | doClose at_ => exact inv

/-- Where no Shutdown finds the current list empty and the other one not, and no batch comes to
2 GiB: at every SHUT_WR all that had been accepted was written. -/
theorem shutdown_after_data {b : Build} {s : Sys}
    (h : Machine.Runs (intStep b) (fun s a => (cutsOff s a || overlong s a) = false) Sys.init s)
    (i : ℕ) (at_ : s.world.log[i]? = some .shutdownWrite) :
    acceptedBytes (s.world.log.take i) = writtenBytes (s.world.log.take i) := by
  have hrun : Machine.Runs (step b) (fun s a => (cutsOff s a || overlong s a) = false)
      Sys.init s := h.congr fun u a short => intStep_eq (Bool.or_eq_false_iff.mp short).2
  have inv : AfterData s.world.log := by
    refine hrun.invariant (I := fun s => AfterData s.world.log) ?_
      fun u v a run inv whole hstep => ?_
    · intro i hi
      cases hi
    · exact afterData_step (step_sendStep hstep) inv (reachable_unsent run.reaches)
        (reachable_alone (.next run.reaches trivial hstep)) (Bool.or_eq_false_iff.mp whole).1
  exact inv i at_

def orderlyRun : List Label :=
  [.start, .send (some ⟨[7, 8], 0, 2⟩) 0, .writable, .collect ⟨false, true, false⟩, .disable,
    .onActive 0, .post, .worker 0 .again, .worker 0 .again, .worker 0 .again, .worker 0 .again,
    .worker 0 (.ok 2), .worker 0 .again, .shutdown]

theorem shutdown_after_data_orderly : ∃ s : Sys,
    Machine.exec (Machine.guarded (fun s a => !(cutsOff s a || overlong s a)) (intStep ⟨false⟩))
      Sys.init orderlyRun = some s ∧ s.world.log[2]? = some .shutdownWrite ∧
    acceptedBytes (s.world.log.take 2) = writtenBytes (s.world.log.take 2) := by
  have h : (Machine.exec (Machine.guarded (fun s a => !(cutsOff s a || overlong s a))
      (intStep ⟨false⟩)) Sys.init orderlyRun).map (·.world.log[2]?) =
        some (some .shutdownWrite) := rfl
  obtain ⟨s, hs, hlog⟩ := Option.map_eq_some_iff.mp h
  exact ⟨s, hs, hlog, shutdown_after_data (b := ⟨false⟩) (.avoiding _ hs) 2 hlog⟩

def cuttingRun : List Label :=
  [.start, .send (some ⟨[7, 8], 0, 2⟩) 0, .writable, .collect ⟨false, true, false⟩, .disable,
    .onActive 0, .post, .worker 0 .again, .worker 0 .again, .worker 0 .again, .worker 0 .again,
    .shutdown]

theorem shutdown_cuts_data_off : ∃ s : Sys,
    Machine.exec (intStep ⟨false⟩) Sys.init cuttingRun = some s ∧
    s.world.log[1]? = some .shutdownWrite ∧ acceptedBytes (s.world.log.take 1) = [7, 8] ∧
    writtenBytes (s.world.log.take 1) = [] := by
  have h : (Machine.exec (intStep ⟨false⟩) Sys.init cuttingRun).map
      (fun s => (s.world.log[1]?, acceptedBytes (s.world.log.take 1),
        writtenBytes (s.world.log.take 1))) = some (some .shutdownWrite, [7, 8], []) := rfl
  obtain ⟨s, hs, hview⟩ := Option.map_eq_some_iff.mp h
  simp only [Prod.mk.injEq] at hview
  exact ⟨s, hs, hview⟩

/-! ## Data left behind -/

def Drained (s : Sys) : Prop :=
  s.world.sock.shutdown = true → s.world.sock.closed = true ∨ s.world.sock.socketError = true ∨
    s.world.sock.ptrSendlist = [] ∧ .shutdownWrite ∈ s.world.log

def DoPc.putsBack : DoPc → Bool
  | .written _ _ _ .again _ _ => true
  | .written _ _ _ (.ok n) total null => decide (0 < n ∧ (n < total ∨ null = false))
  | _ => false

/-- On an open socket without error, Shutdown takes effect and finds the current list not empty, or
the section after a writev puts something back when Shutdown has taken effect. -/
def strands (s : Sys) (a : Label) : Bool :=
  !s.world.sock.closed && !s.world.sock.socketError &&
    match a with
    | .shutdown => !s.world.sock.shutdown && !s.world.sock.ptrSendlist.isEmpty
    | .worker k _ => s.world.sock.shutdown && s.tasks[k]?.any DoPc.putsBack
    | _ => false

theorem Drained.frame {s s' : Sys} (inv : Drained s)
    (shut : s'.world.sock.shutdown = s.world.sock.shutdown)
    (closed : s.world.sock.closed = true → s'.world.sock.closed = true)
    (error : s.world.sock.socketError = true → s'.world.sock.socketError = true)
    (list : s.world.sock.shutdown = true → s.world.sock.closed = false →
      s.world.sock.socketError = false → s.world.sock.ptrSendlist = [] →
        s'.world.sock.ptrSendlist = [])
    (log : ∃ l, s'.world.log = s.world.log ++ l) : Drained s' := by
  intro hshut
  obtain ⟨l, hl⟩ := log
  have hbefore := shut.symm.trans hshut
  cases hc : s.world.sock.closed with
  | true => exact .inl (closed hc)
  | false =>
    cases he : s.world.sock.socketError with
    | true => exact .inr (.inl (error he))
    | false =>
      rcases inv hbefore with h | h | ⟨hlist, hmem⟩
      · cases hc.symm.trans h
      · cases he.symm.trans h
      · refine .inr (.inr ⟨list hbefore hc he hlist, ?_⟩)
        rw [hl]
        exact List.mem_append_left l hmem

/-- The send side is not shut down by this step, nor has it been before. -/
theorem Drained.vacuous {s : Sys} (h : s.world.sock.shutdown = false) : Drained s := by
  intro hshut
  cases h.symm.trans hshut

theorem Aside.ptrSendlist {w w' : World} (h : Aside w w') :
    w'.sock.ptrSendlist = w.sock.ptrSendlist := by
  have hlists : w'.sock.sendLists = w.sock.sendLists := congrArg SendPart.sendLists h.part
  have hidx : w'.sock.slistIdx = w.sock.slistIdx := congrArg SendPart.slistIdx h.part
  rw [TCPSocket.ptrSendlist, hlists, hidx]
  rfl

theorem setSendList_nil {s : TCPSocket} (j : Fin 2) (h : s.ptrSendlist = []) :
    (s.setSendList j []).ptrSendlist = [] := by
  show Function.update s.sendLists j [] s.slistIdx = []
  by_cases hj : s.slistIdx = j
  · rw [hj, Function.update_self]
  · rw [Function.update_of_ne hj]
    exact h

theorem written_keeps {w : World} {i n total : ℕ} {j : Fin 2} {ver : BitVec 32} {null : Bool}
    {o : Outcome} (move : Move w (.written i j ver (.ok n) total null) o)
    (back : (DoPc.written i j ver (.ok n) total null).putsBack = false) :
    o.world.sock.ptrSendlist = w.sock.ptrSendlist := by
  cases move with
  | writtenOk last put =>
    unfold putBackSend at put
    rw [if_neg (of_decide_eq_false back)] at put
    cases put
    obtain ⟨l, act, hf, -⟩ := flushed_eq _ _ _
    rw [hf]
    rfl
  | quiet hq | idle hq | leave hq | closing hq => cases hq

theorem writes_drained {s : Sys} {k : ℕ} {pc : DoPc} {o : Outcome} {io : Io} (inv : Drained s)
    (at_ : s.tasks[k]? = some pc) (sends : pc.sends = true) (move : Move s.world pc o)
    (drains : strands s (.worker k io) = false) : Drained (s.resume k o) := by
  have back (hshut : s.world.sock.shutdown = true) (hc : s.world.sock.closed = false)
      (he : s.world.sock.socketError = false) : pc.putsBack = false := by
    simpa [strands, hshut, hc, he, at_] using drains
  cases hpending : pc.unaccounted with
  | true =>
    obtain ⟨i, j, ver, n, total, null, rfl⟩ := unaccounted_eq hpending
    obtain ⟨-, hshut, hclosed, herror, hempty, hmore⟩ := move_followUp move
    refine inv.frame hshut hclosed.trans herror.trans (fun hs hc he => ?_) ?_
    · exact (written_keeps move (back hs hc he)).trans
    · by_cases hlist : o.world.sock.ptrSendlist = []
      · exact ⟨_, (hempty hlist).1⟩
      · exact ⟨[], (hmore hlist).1.trans (List.append_nil _).symm⟩
  | false =>
    cases move with
    | writevAll =>
      exact inv.frame rfl id id (fun _ _ _ => setSendList_nil _) ⟨_, rfl⟩
    | writevPart => exact inv.frame rfl id id (fun _ _ _ => id) ⟨_, rfl⟩
    | writevError => exact inv.frame rfl id id (fun _ _ _ => id) ⟨_, rfl⟩
    | writtenOk => cases hpending
    | writtenClear | writtenStale =>
      refine inv.frame rfl id id (fun hs hc he => ?_) ⟨[], (List.append_nil _).symm⟩
      cases back hs hc he
    | quiet hq | idle hq | leave hq | closing hq => exact absurd hq (DoPc.sends_not_quiet sends)
    | writtenError =>
      exact inv.frame rfl id (fun _ => rfl) (fun _ _ _ => id) ⟨[], (List.append_nil _).symm⟩
    | _ => first
      | exact inv.frame rfl id id (fun _ _ _ => id) ⟨[], (List.append_nil _).symm⟩
      | cases sends

theorem drained_step {s s' : Sys} {a : Label} (h : SendStep s a s') (inv : Drained s)
    (drains : strands s a = false) : Drained s' := by
  cases h with
  | aside world away tasks closing =>
    obtain ⟨l, hl, -⟩ := world.log
    refine inv.frame (congrArg SendPart.shutdown world.part) world.closed world.error ?_ ⟨l, hl⟩
    exact fun _ _ _ => world.ptrSendlist.trans
  | sent caller buff len last pos opened write more world tasks =>
    exact .vacuous ((congrArg SendPart.shutdown world.part :).trans write)
  | shutdown opened write =>
    intro _
    cases he : s.world.sock.socketError with
    | true =>
      refine .inr (.inl ?_)
      simp only [Sys.lift, markShutdown_sock]
      exact he
    | false =>
      have hempty : s.world.sock.ptrSendlist = [] := by
        simpa [strands, opened, write, he] using drains
      refine .inr (.inr ⟨?_, ?_⟩)
      · simp only [Sys.lift, markShutdown_sock]
        exact hempty
      · have hcur : ({ s.world.sock with shutdown := true } : TCPSocket).ptrSendlist = [] := hempty
        simp [Sys.lift, markShutdown, hcur, World.note]
  | take at_ can =>
    exact .vacuous (canWrite_open can).1
  | writes at_ sends move => exact writes_drained inv at_ sends move drains
  | calls at_ => exact inv.frame rfl id id (fun _ _ _ => id) ⟨_, rfl⟩
  | doClose at_ =>
    refine inv.frame rfl id id (fun _ _ _ => ?_) ⟨[], (List.append_nil _).symm⟩
    exact setSendList_nil 1 ∘ setSendList_nil 0

/-- Where Shutdown never finds something in the current list and nothing is put back after it: no
byte waits once Shutdown has taken effect and no task is left, and SHUT_WR has been issued. -/
theorem shutdown_strands_nothing {b : Build} {s : Sys}
    (h : Machine.Runs (step b) (fun s a => strands s a = false) Sys.init s)
    (shut : s.world.sock.shutdown = true) (opened : s.world.sock.closed = false)
    (fine : s.world.sock.socketError = false) (idle : s.tasks = []) :
    (∀ j, s.world.sock.sendLists j = []) ∧ .shutdownWrite ∈ s.world.log := by
  have inv : Drained s := by
    refine h.invariant (.vacuous rfl) fun u v a run inv drains hstep => ?_
    exact drained_step (step_sendStep hstep) inv drains
  have hlist : s.world.sock.ptrSendlist = [] ∧ .shutdownWrite ∈ s.world.log := by
    rcases inv shut with hc | he | hlist
    · cases opened.symm.trans hc
    · cases fine.symm.trans he
    · exact hlist
  have hother : s.world.sock.sendLists (flip s.world.sock.slistIdx) = [] := by
    rcases reachable_unsent h.reaches with unsent | late
    · cases hfail : s.world.outgoing.failed with
      | false => exact (unsent.fine hfail).idle idle
      | true =>
        rcases (unsent.broken hfail).stopped with he | hc | ⟨pc, hpc, -⟩
        · cases fine.symm.trans he
        · cases opened.symm.trans hc
        · rw [idle] at hpc
          cases hpc
    · cases opened.symm.trans late.closed
  refine ⟨fun j => ?_, hlist.2⟩
  rcases eq_or_eq_flip s.world.sock.slistIdx j with rfl | rfl
  · exact hlist.1
  · exact hother

/-- The way of `Do` to its end after the write side has been shut down. -/
theorem shutdown_strands_nothing_orderly : ∃ s : Sys,
    Machine.exec (Machine.guarded (fun s a => !strands s a) (step ⟨false⟩)) Sys.init
      (orderlyRun ++ [.worker 0 .again, .worker 0 .again]) = some s ∧
    (∀ j, s.world.sock.sendLists j = []) ∧ .shutdownWrite ∈ s.world.log := by
  have h : (Machine.exec (Machine.guarded (fun s a => !strands s a) (step ⟨false⟩)) Sys.init
      (orderlyRun ++ [.worker 0 .again, .worker 0 .again])).map
      (fun s => (s.world.sock.shutdown, s.world.sock.closed, s.world.sock.socketError,
        s.tasks)) = some (true, false, false, []) := rfl
  obtain ⟨s, hs, hview⟩ := Option.map_eq_some_iff.mp h
  simp only [Prod.mk.injEq] at hview
  obtain ⟨hshut, hopen, hfine, hidle⟩ := hview
  exact ⟨s, hs, shutdown_strands_nothing (b := ⟨false⟩) (.avoiding _ hs) hshut hopen hfine hidle⟩

def strandingRun : List Label :=
  [.start, .send (some ⟨[7, 8], 0, 2⟩) 0, .shutdown, .writable, .collect ⟨false, true, false⟩,
    .disable, .onActive 0]

theorem shutdown_strands_data : ∃ s : Sys,
    Machine.exec (step ⟨false⟩) Sys.init strandingRun = some s ∧ Reachable ⟨false⟩ s ∧
    s.world.sock.shutdown = true ∧ s.world.sock.writeable = true ∧
    s.world.sock.closed = false ∧ s.world.sock.socketError = false ∧ s.tasks = [] ∧
    s.posting = 0 ∧ listBytes s.world.sock.ptrSendlist = [7, 8] ∧
    s.world.log = [.accepted [7, 8]] := by
  have h : (Machine.exec (step ⟨false⟩) Sys.init strandingRun).map
      (fun s => (s.world.sock.shutdown, s.world.sock.writeable, s.world.sock.closed,
        s.world.sock.socketError, s.tasks, s.posting, listBytes s.world.sock.ptrSendlist,
        s.world.log)) = some (true, true, false, false, [], 0, [7, 8], [.accepted [7, 8]]) := rfl
  obtain ⟨s, hs, hview⟩ := Option.map_eq_some_iff.mp h
  simp only [Prod.mk.injEq] at hview
  exact ⟨s, hs, Machine.Reaches.of_exec _ hs, hview⟩

end Hwnet.TCPSocket
