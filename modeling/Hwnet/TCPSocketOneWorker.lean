import Hwnet.TCPSocketSteps

set_option autoImplicit false

/-!
# One worker per socket

While the socket is open, `doing` counts its Do tasks: queued, running, or about to be posted.
And whatever gives `Do` something to do keeps `doing` set, so no work waits without a task.
-/
namespace Hwnet.TCPSocket

def PendingWork (s : TCPSocket) : Prop :=
  s.socketError = true ∨ s.readable = true ∧ s.recvList ≠ [] ∨
    s.writeable = true ∧ s.ptrSendlist ≠ [] ∧ s.shutdown = false ∧ s.socketError = false

theorem PendingWork.able {s : TCPSocket} (h : PendingWork s) (opened : s.closed = false) :
    s.canRead = true ∨ s.canWrite = true := by
  rcases h with h | ⟨hr, hl⟩ | ⟨hw, hl, hs, he⟩
  · left; simp [canRead, h]
  · left; simp [canRead, hr, hl]
  · right; simp [canWrite, hs, he, opened, hw, hl]

theorem wake_eq (w : World) (work : Bool) :
    wake w work = ({ w with sock := { w.sock with doing := w.sock.doing || work } },
      !w.sock.doing && work) := by
  unfold wake
  split
  · rename_i h
    simp only [Bool.and_eq_true, Bool.not_eq_true'] at h
    rw [h.1, h.2]; rfl
  · rename_i h
    have stays : (w.sock.doing || work) = w.sock.doing ∧ (!w.sock.doing && work) = false := by
      revert h; cases w.sock.doing <;> cases work <;> decide
    rw [stays.1, stays.2]

theorem close_closed (w : World) : (close w).1.sock.closed = true := by
  unfold close
  split
  · assumption
  · rfl

/-! ## Sections of the callers -/

/-- What a section owes to the count of Do tasks and to the work it leaves. -/
structure Orderly (w : World) (r : World × Bool) : Prop where
  opened : w.sock.closed = false
  count : w.sock.doing.toNat + r.2.toNat = r.1.sock.doing.toNat
  busy : (PendingWork w.sock → w.sock.doing = true) → PendingWork r.1.sock →
    r.1.sock.doing = true

theorem wake_count (w : World) (work : Bool) :
    w.sock.doing.toNat + (wake w work).2.toNat = (wake w work).1.sock.doing.toNat := by
  rw [wake_eq]
  cases w.sock.doing <;> cases work <;> rfl

theorem pendingWork_retimed {w w' : World} (h : Retimed w w') :
    PendingWork w'.sock ↔ PendingWork w.sock := by
  obtain ⟨t, hs⟩ := h.sock
  rw [hs]; rfl

/-- A section that ends in `wake` is orderly when the work it may have found is woken for. -/
theorem orderly_wake {w w' : World} {work : Bool} (opened : w.sock.closed = false)
    (same : w'.sock.doing = w.sock.doing)
    (found : PendingWork w'.sock → PendingWork w.sock ∨ work = true) :
    Orderly w (wake w' work) := by
  refine ⟨opened, by rw [← same]; exact wake_count w' work, ?_⟩
  intro hbusy hp
  rw [wake_eq] at hp ⊢
  rcases found hp with h | h
  · simp [same, hbusy h]
  · simp [h]

theorem queueSend_found {w w' : World} {buff : Buffer} {len : ℕ} {last : Bool}
    (h : Retimed (queueSend w buff len last) w') (hp : PendingWork w'.sock) :
    PendingWork w.sock ∨ (w'.sock.writeable || w'.sock.highWater) = true := by
  have hw : w'.sock.writeable = w.sock.writeable := by
    obtain ⟨t, hs⟩ := h.sock
    rw [hs]; rfl
  rw [pendingWork_retimed h] at hp
  rcases hp with he | hr | ⟨hwr, _⟩
  · exact .inl (.inl he)
  · exact .inl (.inr (.inl hr))
  · exact .inr (by simp [hw, show w.sock.writeable = true from hwr])

theorem queueRecv_found {w w' : World} {buff : RecvBuffer} (h : Retimed (queueRecv w buff) w')
    (hp : PendingWork w'.sock) : PendingWork w.sock ∨ w'.sock.readable = true := by
  have hw : w'.sock.readable = w.sock.readable := by
    obtain ⟨t, hs⟩ := h.sock
    rw [hs]; rfl
  rw [pendingWork_retimed h] at hp
  rcases hp with he | ⟨hr, _⟩ | hs
  · exact .inl (.inl he)
  · exact .inr (hw.trans hr)
  · exact .inl (.inr (.inr hs))

theorem markShutdown_sock (w : World) :
    (markShutdown w).sock = { w.sock with shutdown := true } := by
  unfold markShutdown
  dsimp only
  split <;> rfl

theorem section_orderly {w : World} {r : World × Bool} (h : Section w r)
    (opened : r.1.sock.closed = false) : Orderly w r := by
  cases h with
  | retimed h =>
    refine ⟨h.closed ▸ opened, by simp [h.doing], ?_⟩
    intro hbusy hp
    rw [h.doing]
    exact hbusy ((pendingWork_retimed h).mp hp)
  | timer h due =>
    rw [wake_eq] at opened
    exact orderly_wake (h.closed ▸ opened) h.doing fun hp =>
      .inl ((pendingWork_retimed h).mp hp)
  | set t => exact ⟨opened, rfl, fun hbusy hp => hbusy hp⟩
  | sent buff len last pos ho hs hm h =>
    exact orderly_wake ho (h.doing :) (queueSend_found h)
  | posted buff pos ho h => exact orderly_wake ho (h.doing :) (queueRecv_found h)
  | shutdown ho hs =>
    have hsock := markShutdown_sock w
    refine ⟨ho, by rw [hsock]; rfl, ?_⟩
    intro hbusy hp
    rw [hsock] at hp ⊢
    rcases hp with he | hr | ⟨_, _, hf, _⟩
    · exact hbusy (.inl he)
    · exact hbusy (.inr (.inl hr))
    · cases hf
  | closed ho h => cases opened
  | started => exact ⟨opened, rfl, fun hbusy hp => hbusy hp⟩
  | arrive => exact ⟨opened, rfl, fun hbusy hp => hbusy hp⟩
  | writable => exact ⟨opened, rfl, fun hbusy hp => hbusy hp⟩

theorem setReady_frame (s : TCPSocket) (event : Event) (err : ℤ) :
    (s.setReady event err).closed = s.closed ∧ (s.setReady event err).doing = s.doing := by
  unfold setReady
  dsimp only
  split_ifs <;> exact ⟨rfl, rfl⟩

theorem setReady_timeouts (s : TCPSocket) (event : Event) (err : ℤ) :
    (s.setReady event err).toTimeouts = s.toTimeouts := by
  unfold setReady
  dsimp only
  split_ifs <;> rfl

theorem onActive_orderly {w : World} {event : Event} {err : ℤ}
    (opened : (onActive w event err).1.sock.closed = false) :
    Orderly w (onActive w event err) := by
  obtain ⟨hc, hd⟩ := setReady_frame w.sock event err
  unfold onActive at opened ⊢
  rw [wake_eq] at opened
  have ho : (w.sock.setReady event err).closed = false := opened
  refine orderly_wake (hc ▸ ho) hd fun hp => .inr ?_
  simpa using hp.able ho

/-! ## Moves of the worker -/

def DoPc.closes : DoPc → Bool
  | .doClose | .closeCallback _ => true
  | _ => false

theorem DoPc.quiet_not_closes {pc : DoPc} (h : pc.quiet) : pc.closes = false := by
  cases pc <;> first | rfl | cases h

/-- What a step of the one worker owes: it goes on without touching `doing`, or it clears it and
leaves nothing to do. -/
structure Diligent (w : World) (o : Outcome) : Prop where
  post : o.post = false
  goes : ∀ pc, o.next = some pc → pc.closes = false ∧ o.world.sock.doing = w.sock.doing
  ends : o.next = none → o.world.sock.doing = false ∧ ¬ PendingWork o.world.sock

theorem diligent_goto {w w' : World} {pc : DoPc} (hpc : pc.closes = false)
    (same : w'.sock.doing = w.sock.doing) : Diligent w (goto w' pc) :=
  ⟨rfl, fun pc' h => by cases h; exact ⟨hpc, same⟩, fun h => by cases h⟩

theorem noteReceived_sock (w : World) (cb : Option Callback) (buff : RecvBuffer)
    (n : ℕ) : (noteReceived w cb buff n).sock = w.sock := by
  cases cb <;> rfl

theorem Hold.finish_frame (s : TCPSocket) (hold : Hold) :
    ∃ lists, hold.finish s = { s with recvLists := lists } := by
  cases hold <;> exact ⟨_, rfl⟩

theorem Hold.restore_frame (s : TCPSocket) (hold : Hold) :
    ∃ lists, hold.restore s = { s with recvLists := lists } := by
  cases hold <;> exact ⟨_, rfl⟩

theorem putBackSend_frame {s s' : TCPSocket} {j : Fin 2} {n total : ℕ} {null : Bool}
    (h : putBackSend s j n total null = some s') : ∃ lists, s' = { s with sendLists := lists } := by
  unfold putBackSend at h
  split at h
  · simp only [Option.map_eq_some_iff] at h
    obtain ⟨l, _, rfl⟩ := h
    exact ⟨_, rfl⟩
  · cases h; exact ⟨_, rfl⟩

theorem flushed_eq (w : World) (i : ℕ) (last : Bool) :
    ∃ l act, flushed w i last = goto { w with log := w.log ++ l } (.sendAction i act) ∧
      ∀ o ∈ l, o = .shutdownWrite := by
  have same : { w with log := w.log ++ [] } = w := by rw [List.append_nil]
  unfold flushed
  split
  · cases w.sock.shutdown with
    | false =>
      refine ⟨[], ?_⟩
      simp only [same, Bool.false_eq_true, ↓reduceIte]
      cases w.sock.flushCallback <;> exact ⟨_, rfl, by simp⟩
    | true =>
      refine ⟨[.shutdownWrite], ?_⟩
      simp only [↓reduceIte, World.note]
      cases w.sock.flushCallback <;> exact ⟨_, rfl, by simp⟩
  · exact ⟨[], .nothing, by rw [same], by simp⟩

/-- A move that is no `Close` posts nothing, leaves `closed` alone and, once the socket is closed,
turns no timeout on. -/
theorem move_frame {w : World} {pc : DoPc} {o : Outcome} (h : Move w pc o) :
    (o.post = false ∧ o.world.sock.closed = w.sock.closed ∧
      (w.sock.closed = true → SameDurations w.sock.toTimeouts o.world.sock.toTimeouts)) ∨
    pc.quiet = true ∧ ∃ pc', o = ⟨(close w).1, (close w).2, some pc'⟩ := by
  have same : SameDurations w.sock.toTimeouts w.sock.toTimeouts := ⟨rfl, rfl⟩
  cases h with
  | quiet hq hq' h => exact .inl ⟨rfl, h.closed, h.late⟩
  | idle hq h => exact .inl ⟨rfl, h.closed, h.late⟩
  | leave hq h => exact .inl ⟨rfl, h.closed, h.late⟩
  | deliverFront =>
    left
    simp only [goto, noteReceived_sock, true_and]
    exact fun _ => same
  | deliverList =>
    left
    simp only [goto, noteReceived_sock]
    exact ⟨trivial, rfl, fun _ => same⟩
  | @recvFinish i cw hold last =>
    obtain ⟨lists, hl⟩ := hold.finish_frame { w.sock with lastRecvTime := last }
    left
    simp only [goto, hl]
    exact ⟨trivial, trivial, fun _ => ⟨rfl, rfl⟩⟩
  | @restoreClear i cw ver hold | @restoreStale i cw ver hold =>
    obtain ⟨lists, hl⟩ := hold.restore_frame w.sock
    left
    simp only [goto, hl]
    exact ⟨trivial, trivial, fun _ => same⟩
  | closing hq hq' => exact .inr ⟨hq, _, rfl⟩
  | writtenOk last put =>
    obtain ⟨lists, rfl⟩ := putBackSend_frame put
    obtain ⟨l, act, hf, -⟩ := flushed_eq _ _ _
    rw [hf]; exact .inl ⟨rfl, rfl, fun _ => ⟨rfl, rfl⟩⟩
  | _ => exact .inl ⟨rfl, rfl, fun _ => same⟩

theorem move_closed {w : World} {pc : DoPc} {o : Outcome} (h : Move w pc o)
    (closed : w.sock.closed = true) : o.world.sock.closed = true := by
  rcases move_frame h with ⟨-, hc, -⟩ | ⟨-, _, rfl⟩
  · exact hc.trans closed
  · exact close_closed w

theorem move_opened {w : World} {pc : DoPc} {o : Outcome} (h : Move w pc o)
    (opened : o.world.sock.closed = false) : w.sock.closed = false := by
  cases hc : w.sock.closed with
  | false => rfl
  | true => exact (move_closed h hc).symm.trans opened

theorem move_diligent {w : World} {pc : DoPc} {o : Outcome} (h : Move w pc o)
    (hpc : pc.closes = false) (opened : o.world.sock.closed = false) : Diligent w o := by
  cases h with
  | quiet hq hq' h => exact diligent_goto (DoPc.quiet_not_closes hq') h.doing
  | @idle _ w' hq h ho hr hw =>
    refine ⟨rfl, fun pc h => (nomatch h), fun _ => ⟨rfl, fun hp => ?_⟩⟩
    have hp' : PendingWork w'.sock := hp
    rcases ((pendingWork_retimed h).mp hp').able ho with h | h
    · rw [hr] at h; cases h
    · rw [hw] at h; cases h
  | leave hq h hc =>
    rw [← h.closed] at hc
    exact absurd opened (by simp [goto, hc])
  | deliverFront => exact diligent_goto rfl (by rw [noteReceived_sock])
  | deliverList hl hnext =>
    refine diligent_goto ?_ (by rw [noteReceived_sock]; rfl)
    rcases hnext with rfl | ⟨_, rfl⟩
    · rfl
    · exact DoPc.quiet_not_closes (afterRecv_quiet _ _)
  | @recvFinish i cw hold last =>
    obtain ⟨lists, hl⟩ := hold.finish_frame { w.sock with lastRecvTime := last }
    exact diligent_goto (DoPc.quiet_not_closes (afterRecv_quiet _ _)) (by rw [hl])
  | @restoreClear i cw ver hold | @restoreStale i cw ver hold =>
    obtain ⟨lists, hl⟩ := hold.restore_frame w.sock
    exact diligent_goto (DoPc.quiet_not_closes (afterRecv_quiet _ _)) (by simp only [hl])
  | closing => rw [close_closed] at opened; cases opened
  | writtenOk last put =>
    obtain ⟨lists, rfl⟩ := putBackSend_frame put
    obtain ⟨l, act, hf, -⟩ := flushed_eq _ _ _
    rw [hf]; exact diligent_goto rfl rfl
  | doClose | closeCallback | noCallback => cases hpc
  | _ => exact diligent_goto rfl rfl

/-! ## The invariant -/

/-- No caller opens a socket again. -/
theorem caller_opened {s s' : Sys} {a : Label} (h : Stepped s a s')
    (away : ∀ k io, a ≠ .worker k io) (opened : s'.world.sock.closed = false) :
    s.world.sock.closed = false := by
  cases h with
  | apiCall h => exact (section_orderly h opened).opened
  | collect | disable | post => exact opened
  | onActive err => exact (onActive_orderly opened).opened
  | worker => exact absurd rfl (away _ _)

structure OneWorker (s : Sys) : Prop where
  count : s.tasks.length + s.posting = s.world.sock.doing.toNat
  live : ∀ pc ∈ s.tasks, pc.closes = false
  busy : PendingWork s.world.sock → s.world.sock.doing = true

theorem OneWorker.single {s : Sys} {k : ℕ} {pc : DoPc} (h : OneWorker s)
    (at_ : s.tasks[k]? = some pc) : s.tasks = [pc] ∧ k = 0 := by
  obtain ⟨hk, hpc⟩ := List.getElem?_eq_some_iff.mp at_
  have hcount := h.count
  have := Bool.toNat_le s.world.sock.doing
  obtain ⟨q, hq⟩ := List.length_eq_one_iff.mp (show s.tasks.length = 1 by omega)
  have hzero : k = 0 := by omega
  subst hzero
  simp only [hq, List.getElem_cons_zero] at hpc
  rw [hq, hpc]
  exact ⟨rfl, rfl⟩

theorem OneWorker.apiCall {s : Sys} {r : World × Bool} (h : OneWorker s)
    (ho : Orderly s.world r) : OneWorker (s.unlock r) where
  count := by
    have := h.count
    have := ho.count
    simp only [Sys.unlock]
    omega
  live := h.live
  busy := ho.busy h.busy

theorem OneWorker.busy_of_task {s : Sys} {k : ℕ} (h : OneWorker s) (hk : k < s.tasks.length) :
    s.world.sock.doing = true := by
  have hcount := h.count
  cases hd : s.world.sock.doing
  · rw [hd, Bool.toNat_false] at hcount; omega
  · rfl

/-- A task that is there after a step was there before, or is the one that has stepped. -/
theorem of_mem_resume {s : Sys} {k : ℕ} {q : DoPc} {o : Outcome}
    (h : q ∈ (s.resume k o).tasks) : q ∈ s.tasks ∨ o.next = some q := by
  cases hn : o.next with
  | none =>
    simp only [Sys.resume, hn] at h
    exact .inl (List.mem_of_mem_eraseIdx h)
  | some p =>
    simp only [Sys.resume, hn] at h
    rcases List.mem_or_eq_of_mem_set h with h | rfl
    · exact .inl h
    · exact .inr rfl

theorem resume_sole {s : Sys} {pc : DoPc} (one : s.tasks = [pc]) (o : Outcome) :
    (s.resume 0 o).tasks = o.next.toList := by
  unfold Sys.resume
  rw [one]
  cases o.next <;> rfl

/-- The only task of an open socket steps: it goes on, or it ends and clears `doing`. -/
theorem OneWorker.worker {s : Sys} {k : ℕ} {pc : DoPc} {o : Outcome} (h : OneWorker s)
    (at_ : s.tasks[k]? = some pc) (ho : Diligent s.world o) : OneWorker (s.resume k o) := by
  obtain ⟨hk, rfl⟩ := List.getElem?_eq_some_iff.mp at_
  have hcount := h.count
  have hdoing := h.busy_of_task hk
  rw [hdoing, Bool.toNat_true] at hcount
  cases hn : o.next with
  | some pc' =>
    obtain ⟨hpc', hd⟩ := ho.goes pc' hn
    rw [hdoing] at hd
    refine ⟨?_, ?_, fun _ => hd⟩
    · simp only [Sys.resume, hn, ho.post, List.length_set, hd, Bool.toNat_true, Bool.toNat_false]
      exact hcount
    · intro pc hpc
      rcases of_mem_resume hpc with hpc | hpc
      · exact h.live pc hpc
      · cases hn.symm.trans hpc
        exact hpc'
  | none =>
    obtain ⟨hd, hp⟩ := ho.ends hn
    refine ⟨?_, ?_, fun h => absurd h hp⟩
    · simp only [Sys.resume, hn, ho.post, hd, Bool.toNat_false]
      rw [List.length_eraseIdx_of_lt hk]
      omega
    · intro pc hpc
      rcases of_mem_resume hpc with hpc | hpc
      · exact h.live pc hpc
      · cases hn.symm.trans hpc

theorem oneWorker_init : OneWorker Sys.init := by
  refine ⟨rfl, by simp [Sys.init], fun h => ?_⟩
  rcases h with h | ⟨h, _⟩ | ⟨h, _⟩ <;> cases h

theorem oneWorker_step {s s' : Sys} {a : Label} (h : Stepped s a s')
    (inv : s.world.sock.closed = false → OneWorker s) (opened : s'.world.sock.closed = false) :
    OneWorker s' := by
  cases h with
  | apiCall h =>
    have ho := section_orderly h opened
    exact (inv ho.opened).apiCall ho
  | collect event idle =>
    obtain ⟨hc, hl, hb⟩ := inv opened
    exact ⟨hc, hl, hb⟩
  | disable entered =>
    obtain ⟨hc, hl, hb⟩ := inv opened
    exact ⟨hc, hl, hb⟩
  | onActive err locking =>
    have ho := onActive_orderly opened
    obtain ⟨hc, hl, hb⟩ := (inv ho.opened).apiCall ho
    exact ⟨hc, hl, hb⟩
  | post pos =>
    obtain ⟨hc, hl, hb⟩ := inv opened
    refine ⟨?_, ?_, hb⟩
    · simp only [List.length_append, List.length_singleton]
      omega
    · intro pc hpc
      rcases List.mem_append.mp hpc with hpc | hpc
      · exact hl pc hpc
      · rw [List.mem_singleton.mp hpc]; rfl
  | @worker k io pc o at_ move =>
    have hc : s.world.sock.closed = false := move_opened move opened
    have hlive := (inv hc).live pc (List.mem_of_getElem? at_)
    exact (inv hc).worker at_ (move_diligent move hlive opened)

theorem reachable_oneWorker {b : Build} {s : Sys} (h : Reachable b s)
    (opened : s.world.sock.closed = false) : OneWorker s := by
  refine h.invariant (I := fun s => s.world.sock.closed = false → OneWorker s) ?_ ?_ opened
  · exact fun _ => oneWorker_init
  · intro u v a _ inv _ hstep
    exact oneWorker_step (step_stepped hstep) inv

/-- In every reachable state of an open socket: `doing` counts the Do tasks, and pending work
keeps it set. A Do that has cleared `doing` is no longer among the tasks. -/
theorem one_worker_no_lost_work {b : Build} {s : Sys} (h : Reachable b s)
    (opened : s.world.sock.closed = false) :
    s.tasks.length + s.posting = (if s.world.sock.doing then 1 else 0) ∧
      (PendingWork s.world.sock → s.world.sock.doing = true) := by
  have inv := reachable_oneWorker h opened
  refine ⟨?_, inv.busy⟩
  rw [inv.count]
  cases s.world.sock.doing <;> rfl

def sendingRun : List Label :=
  [.start, .send (some ⟨[7, 8], 0, 2⟩) 0, .writable, .collect ⟨false, true, false⟩, .disable,
    .onActive 0, .post]

/-- A send queued before the socket became writeable: the event posts the one task. -/
theorem one_worker_no_lost_work_sending : ∃ s : Sys,
    Machine.exec (step ⟨false⟩) Sys.init sendingRun = some s ∧
    s.tasks = [.queued] ∧ PendingWork s.world.sock ∧
    s.tasks.length + s.posting = (if s.world.sock.doing then 1 else 0) ∧
      (PendingWork s.world.sock → s.world.sock.doing = true) := by
  refine ⟨_, rfl, rfl, .inr (.inr ⟨rfl, by decide, rfl, rfl⟩), ?_⟩
  exact one_worker_no_lost_work (b := ⟨false⟩) (Machine.Reaches.of_exec sendingRun rfl) rfl

end Hwnet.TCPSocket
