import Hwnet.TCPSocketStream

set_option autoImplicit false

/-!
# The slot of the flush callback

The log only grows, and what is in the slot of the flush callback stays there until
`SetFlushCallback` is called again.
-/
namespace Hwnet.TCPSocket

structure Onward (w w' : World) : Prop where
  slot : w'.sock.flushCallback = w.sock.flushCallback
  log : ∃ l, w'.log = w.log ++ l

def Label.setsFlush : Label → Bool
  | .setFlushCallback _ => true
  | _ => false

variable {w w' w'' : World}

theorem Onward.of_same (slot : w'.sock.flushCallback = w.sock.flushCallback)
    (log : w'.log = w.log) : Onward w w' :=
  ⟨slot, [], log.trans (List.append_nil _).symm⟩

theorem Onward.refl (w : World) : Onward w w := .of_same rfl rfl

theorem Onward.trans (h : Onward w w') (h' : Onward w' w'') : Onward w w'' := by
  obtain ⟨l, hl⟩ := h.log
  obtain ⟨l', hl'⟩ := h'.log
  exact ⟨h'.slot.trans h.slot, l ++ l', by rw [hl', hl, List.append_assoc]⟩

theorem Onward.note (h : Onward w w') (o : Obs) : Onward w (w'.note o) :=
  h.trans ⟨rfl, [o], rfl⟩

theorem Onward.wake (h : Onward w w') (work : Bool) : Onward w (wake w' work).1 := by
  rw [wake_eq]
  exact h.trans (.of_same rfl rfl)

theorem Retimed.onward (h : Retimed w w') : Onward w w' := by
  obtain ⟨t, ht⟩ := h.sock
  obtain ⟨l, hl, -⟩ := h.log
  exact ⟨by rw [ht], l, hl⟩

theorem Onward.accepted (h : Onward w w') : acceptedBytes w.log <+: acceptedBytes w'.log := by
  obtain ⟨l, hl⟩ := h.log
  unfold acceptedBytes
  rw [hl, List.flatMap_append]
  exact List.prefix_append _ _

theorem Onward.written (h : Onward w w') : writtenBytes w.log <+: writtenBytes w'.log := by
  obtain ⟨l, hl⟩ := h.log
  unfold writtenBytes
  rw [hl, List.flatMap_append]
  exact List.prefix_append _ _

/-! ## The callers -/

theorem pushClosure_onward (w : World) (t : TimerId) : Onward w (pushClosure w t).1 := by
  refine Onward.wake ?_ true
  exact .of_same rfl rfl

theorem onTimer_onward (w : World) (t : TimerId) : Onward w (onTimer w t).1 := by
  unfold onTimer
  dsimp only
  split_ifs
  · exact (pushClosure_onward w t).trans (pushClosure_onward _ t)
  · exact pushClosure_onward w t
  · exact pushClosure_onward w t
  · exact .refl w

theorem sendWith_onward (w : World) (last : Bool) (len : ℕ) (buff : Option Buffer) :
    Onward w (sendWith w last len buff).1 := by
  cases buff with
  | none => exact .refl w
  | some buff =>
    have queued (n : ℕ) : Onward w (queueSend w buff n last) := ⟨rfl, [_], rfl⟩
    simp only [sendWith, _send]
    generalize (if len = 0 then buff.len else len) = n
    split_ifs
    · exact .refl w
    · exact .refl w
    · exact ((queued _).trans (registerTimerSend_retimed (.refl _)).onward).wake _
    · exact (queued _).wake _

theorem recv_onward (w : World) (buff : Option RecvBuffer) : Onward w (recv w buff).1 := by
  cases buff with
  | none => exact .refl w
  | some buff =>
    have queued : Onward w (queueRecv w buff) := ⟨rfl, [_], rfl⟩
    simp only [recv, _recv]
    split_ifs
    · exact .refl w
    · exact .refl w
    · exact .refl w
    · exact (queued.trans (registerTimerRecv_retimed (.refl _)).onward).wake _
    · exact queued.wake _

theorem start_onward (w : World) : Onward w (start w) := by
  unfold start
  split
  · exact .refl w
  · exact .of_same rfl rfl

theorem shutdownCall_onward (w : World) : Onward w (shutdownCall w) := by
  unfold shutdownCall markShutdown
  dsimp only
  split_ifs
  · exact .refl w
  · exact ⟨rfl, [_], rfl⟩
  · exact .of_same rfl rfl

theorem close_onward (w : World) : Onward w (close w).1 := by
  unfold close
  split
  · exact .refl w
  · have htimer : Onward w (cancelTimer w) := (cancelTimer_retimed (.refl w)).onward
    refine Onward.note (htimer.trans ?_) _
    exact .of_same rfl rfl

theorem onActive_onward (w : World) (event : Event) (err : ℤ) :
    Onward w (onActive w event err).1 := by
  refine Onward.wake ?_ _
  refine .of_same ?_ rfl
  unfold setReady
  dsimp only
  split_ifs <;> rfl

/-! ## The worker -/

theorem noteReceived_onward (h : Onward w w') (cb : Option Callback) (buff : RecvBuffer) (n : ℕ) :
    Onward w (noteReceived w' cb buff n) := by
  cases cb with
  | none => exact h
  | some cb => exact h.note _

theorem move_onward {pc : DoPc} {o : Outcome} (h : Move w pc o) : Onward w o.world := by
  cases h with
  | quiet hq hq' h | leave hq h => exact h.onward
  | idle hq h => exact h.onward.trans (.of_same rfl rfl)
  | readOk => exact ⟨rfl, [_], rfl⟩
  | deliverFront => exact noteReceived_onward (.refl w) _ _ _
  | deliverList =>
    refine noteReceived_onward ?_ _ _ _
    exact .of_same rfl rfl
  | @recvFinish i cw hold last =>
    obtain ⟨lists, hl⟩ := hold.finish_frame { w.sock with lastRecvTime := last }
    exact .of_same (by rw [goto, hl]) rfl
  | @restoreClear i cw ver hold | @restoreStale i cw ver hold =>
    obtain ⟨lists, hl⟩ := hold.restore_frame w.sock
    exact .of_same (by simp only [goto, hl]) rfl
  | closing => exact close_onward w
  | writevAll => exact ⟨rfl, [_], rfl⟩
  | writevPart | writevError => exact (Onward.refl w).note _
  | writtenOk last put =>
    obtain ⟨lists, rfl⟩ := putBackSend_frame put
    obtain ⟨l, act, hf, -⟩ := flushed_eq _ _ _
    rw [hf]
    exact ⟨rfl, l, rfl⟩
  | closeCallback cb => exact (Onward.refl w).note _
  | _ => exact .of_same rfl rfl

/-! ## The system -/

theorem step_onward {b : Build} {s s' : Sys} {a : Label} (h : step b s a = some s')
    (keeps : a.setsFlush = false) : Onward s.world s'.world := by
  cases a <;> simp only [step, Option.some.injEq] at h
  case start => subst h; exact start_onward _
  case send => subst h; exact sendWith_onward _ _ _ _
  case sendAndClose => subst h; exact sendWith_onward _ _ _ _
  case recv => subst h; exact recv_onward _ _
  case shutdown => subst h; exact shutdownCall_onward _
  case close => subst h; exact close_onward _
  case setFlushCallback => cases keeps
  case setSendTimeoutCallback =>
    subst h; exact (setSendTimeoutCallback_retimed _ _ _).onward
  case setRecvTimeoutCallback =>
    subst h; exact (setRecvTimeoutCallback_retimed _ _ _).onward
  case onTimer t =>
    split at h
    · cases h; exact onTimer_onward _ t
    · cases h
  case collect event =>
    unfold collectStep at h
    split at h <;> cases h
    exact .of_same rfl rfl
  case disable =>
    unfold disableStep at h
    split at h <;> cases h
    exact .of_same rfl rfl
  case onActive err =>
    unfold onActiveStep at h
    split at h <;> cases h
    exact onActive_onward _ _ _
  case post =>
    unfold postStep at h
    split at h <;> cases h
    exact .refl _
  case worker k io =>
    unfold workerStep at h
    simp only [Option.map_eq_some_iff, Option.bind_eq_some_iff] at h
    obtain ⟨o, ⟨pc, -, ho⟩, rfl⟩ := h
    exact move_onward (doStep_move ho)
  all_goals subst h; exact .of_same rfl rfl

end Hwnet.TCPSocket
