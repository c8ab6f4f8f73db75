import Hwnet.TCPSocketOneWorker

set_option autoImplicit false

/-!
# Readiness between the poller and the worker

The poller is edge-triggered, so readiness that is dropped once is never reported again. The
version counters and the order of `Disable`, the two sections and `Enable` keep it from being
dropped.
-/
namespace Hwnet.TCPSocket

/-- The two sides of the protocol: the socket's flags and the descriptor's state. -/
structure Readiness where
  readable : Bool
  readableVer : BitVec 32
  writeable : Bool
  started : Bool
  registered : Bool
  interestWrite : Bool
  readReady : Bool
  queuedRead : Bool
  socketError : Bool
  deriving DecidableEq, Repr

def World.readiness (w : World) : Readiness where
  readable := w.sock.readable
  readableVer := w.sock.readableVer
  writeable := w.sock.writeable
  started := w.sock.started
  registered := w.kernel.registered
  interestWrite := w.kernel.interestWrite
  readReady := w.kernel.readReady
  queuedRead := w.kernel.queuedRead
  socketError := w.sock.socketError

theorem Retimed.readiness {w w' : World} (h : Retimed w w') : w'.readiness = w.readiness := by
  obtain ⟨t, hs⟩ := h.sock
  unfold World.readiness
  rw [hs, h.kernel]

/-! ## What sections and moves do to it -/

inductive Change (r : Readiness) : Readiness → Prop where
  | same : Change r r
  | add (fresh : r.started = false) : Change r { r with
      started := true
      registered := true
      interestWrite := true
      queuedRead := r.readReady }
  | arrive (ready : Bool) (more : r.readReady = true → ready = true) : Change r { r with
      readReady := ready
      queuedRead := r.queuedRead || r.registered && !r.readReady && ready }

theorem Change.socketError {r r' : Readiness} (h : Change r r') :
    r'.socketError = r.socketError := by
  cases h <;> rfl

theorem arrive_change (w : World) (bytes : List UInt8) (eof : Bool) :
    Change w.readiness ({ w with kernel := w.kernel.arrive bytes eof } : World).readiness := by
  refine .arrive _ fun h => ?_
  simp only [World.readiness, Kernel.readReady, Bool.or_eq_true, Bool.not_eq_true'] at h
  simp only [Kernel.readReady, Kernel.arrive, Bool.or_eq_true, Bool.not_eq_true']
  rcases h with h | h
  · left
    simp only [List.isEmpty_eq_false_iff] at h ⊢
    simp [h]
  · exact .inr (.inl h)

theorem section_change {w : World} {r : World × Bool} (h : Section w r)
    (opened : r.1.sock.closed = false) : Change w.readiness r.1.readiness := by
  have same {w' : World} (hr : w'.readiness = w.readiness) : Change w.readiness w'.readiness :=
    hr ▸ .same
  cases h with
  | retimed h => exact same h.readiness
  | timer h => rw [wake_eq]; exact same h.readiness
  | sent buff len last pos ho hs hm h => rw [wake_eq]; exact same h.readiness
  | posted buff pos ho h => rw [wake_eq]; exact same h.readiness
  | shutdown => refine same ?_; unfold markShutdown; dsimp only; split <;> rfl
  | closed => cases opened
  | started fresh => exact .add fresh
  | arrive bytes eof => exact arrive_change w bytes eof
  | set => exact .same
  | writable => exact .same

def DoPc.carries : DoPc → Bool
  | .read .. | .readFailed _ _ _ _ none | .enable _ => true
  | _ => false

theorem DoPc.quiet_not_carries {pc : DoPc} (h : pc.quiet) : pc.carries = false := by
  cases pc <;> first | rfl | cases h

inductive Turn (r : Readiness) : DoPc → Readiness → Option DoPc → Prop where
  | same {pc : DoPc} {next : Option DoPc} (he : ∀ i, pc ≠ .enable i)
      (hn : ∀ pc' ∈ next, pc'.carries = false) : Turn r pc r next
  | take {pc : DoPc} {i : ℕ} {cw : Bool} {cb : Option Callback} {hold : Hold}
      (he : ∀ i, pc ≠ .enable i) (readable : r.readable = true) :
      Turn r pc r (some (.read i cw cb r.readableVer hold))
  | readOk {pc' : DoPc} {i : ℕ} {cw : Bool} {cb : Option Callback} {ver : BitVec 32} {hold : Hold}
      (ready : Bool) (fewer : ready = true → r.readReady = true) (hn : pc'.carries = false) :
      Turn r (.read i cw cb ver hold) { r with readReady := ready } (some pc')
  | again {i : ℕ} {cw : Bool} {cb : Option Callback} {ver : BitVec 32} {hold : Hold}
      (unready : r.readReady = false) :
      Turn r (.read i cw cb ver hold) r (some (.readFailed i cw ver hold none))
  | clear {pc' : DoPc} {i : ℕ} {cw : Bool} {ver : BitVec 32} {hold : Hold}
      (same : ver = r.readableVer) (hn : pc'.carries = false) :
      Turn r (.readFailed i cw ver hold none) { r with readable := false } (some pc')
  | blocked {pc : DoPc} {i : ℕ} : Turn r pc { r with writeable := false } (some (.enable i))
  | enable {pc' : DoPc} {i : ℕ} (hn : pc'.carries = false) :
      Turn r (.enable i) { r with interestWrite := r.interestWrite || r.registered } (some pc')
  | failed {pc : DoPc} {next : Option DoPc} : Turn r pc { r with socketError := true } next

theorem Turn.socketError {r r' : Readiness} {pc : DoPc} {next : Option DoPc}
    (h : Turn r pc r' next) (fine : r'.socketError = false) : r.socketError = false := by
  cases h with
  | failed => cases fine
  | _ => exact fine

theorem noteReceived_readiness (w : World) (cb : Option Callback) (buff : RecvBuffer)
    (n : ℕ) : (noteReceived w cb buff n).readiness = w.readiness := by
  cases cb <;> rfl

theorem enable_readiness (w : World) :
    ({ w with kernel := w.kernel.enable } : World).readiness = { w.readiness with
      interestWrite := w.readiness.interestWrite || w.readiness.registered } := by
  unfold Kernel.enable World.readiness
  cases hr : w.kernel.registered <;> simp [hr, Kernel.readReady]

theorem disable_readiness (w : World) :
    ∃ interest, ({ w with kernel := w.kernel.disable } : World).readiness =
      { w.readiness with interestWrite := interest } := by
  unfold Kernel.disable
  split <;> exact ⟨_, rfl⟩

theorem move_turn {w : World} {pc : DoPc} {o : Outcome} (h : Move w pc o)
    (opened : o.world.sock.closed = false) :
    Turn w.readiness pc o.world.readiness o.next := by
  have quiet_pc {pc : DoPc} (hq : pc.quiet) (i : ℕ) : pc ≠ .enable i := by
    rintro rfl; cases hq
  have one {pc' : DoPc} (hn : pc'.carries = false) : ∀ p ∈ some pc', p.carries = false := by
    rintro p ⟨⟩; exact hn
  cases h with
  | quiet hq hq' h =>
    rw [goto, h.readiness]
    exact .same (quiet_pc hq) (one (DoPc.quiet_not_carries hq'))
  | @idle _ w' hq h =>
    have hr : ({ w' with sock := { w'.sock with doing := false } } : World).readiness =
      w'.readiness := rfl
    simp only [hr, h.readiness]
    exact .same (quiet_pc hq) (by simp)
  | leave hq h =>
    rw [goto, h.readiness]
    exact .same (quiet_pc hq) (one rfl)
  | takeFront ready => exact .take (quiet_pc rfl) ready
  | takeList ready => exact .take (quiet_pc rfl) ready
  | @readOk i n =>
    refine .readOk _ ?_ rfl
    simp only [Kernel.readReady, World.readiness, Bool.or_eq_true, Bool.not_eq_true',
      List.isEmpty_eq_false_iff]
    rintro (h | h)
    · exact .inl fun hnil => h (by simp [World.note, goto, hnil])
    · exact .inr h
  | readAgain unready => exact .again unready
  | deliverFront =>
    rw [goto, noteReceived_readiness]
    exact .same (quiet_pc rfl) (one rfl)
  | deliverList hl hnext =>
    rw [goto, noteReceived_readiness]
    refine .same (quiet_pc rfl) (one ?_)
    rcases hnext with rfl | ⟨_, rfl⟩
    · rfl
    · exact DoPc.quiet_not_carries (afterRecv_quiet _ _)
  | @recvFinish i cw hold last =>
    obtain ⟨lists, hl⟩ := hold.finish_frame { w.sock with lastRecvTime := last }
    rw [goto, hl]
    exact .same (quiet_pc rfl) (one (DoPc.quiet_not_carries (afterRecv_quiet _ _)))
  | @restoreClear i cw ver hold same =>
    obtain ⟨lists, hl⟩ := hold.restore_frame w.sock
    rw [goto, hl]
    exact .clear same (DoPc.quiet_not_carries (afterRecv_quiet _ _))
  | @restoreStale i cw ver hold stale =>
    obtain ⟨lists, hl⟩ := hold.restore_frame w.sock
    rw [goto, hl]
    exact .same (fun _ => DoPc.noConfusion) (one (DoPc.quiet_not_carries (afterRecv_quiet _ _)))
  | closing => rw [close_closed] at opened; cases opened
  | writtenOk last put =>
    obtain ⟨lists, rfl⟩ := putBackSend_frame put
    obtain ⟨l, act, hf, -⟩ := flushed_eq _ _ _
    rw [hf]
    exact .same (fun _ => DoPc.noConfusion) (one rfl)
  | failed => exact .failed
  | writtenError => exact .failed
  | writtenClear => exact .blocked
  | enable => rw [goto, enable_readiness]; exact .enable rfl
  | closeCallback | noCallback => exact .same (fun _ => DoPc.noConfusion) (by simp)
  | _ => exact .same (fun _ => DoPc.noConfusion) (one rfl)

/-! ## The invariant -/

def PollerPc.holdsRead : PollerPc → Bool
  | .idle => false
  | .entered event | .locking event => event.read

theorem PollerPc.holdsRead_pos (p : PollerPc) (h : 0 < p.holdsRead.toNat) :
    ∃ event, (p = .entered event ∨ p = .locking event) ∧ event.read = true := by
  have read {event : Event} (h : 0 < event.read.toNat) : event.read = true := by
    cases hr : event.read
    · rw [hr] at h; cases h
    · rfl
  cases p with
  | idle => cases h
  | entered event => exact ⟨event, .inl rfl, read h⟩
  | locking event => exact ⟨event, .inr rfl, read h⟩

def readEvents (r : Readiness) (p : PollerPc) : ℕ := r.queuedRead.toNat + p.holdsRead.toNat

def bumps (r : Readiness) (ver : BitVec 32) : ℕ := (r.readableVer - ver).toNat

/-- About to read: an unready descriptor has at most the events that are on their way. -/
structure ReadFlight (r : Readiness) (p : PollerPc) (ver : BitVec 32) : Prop where
  registered : r.registered = true
  few : r.readReady = false → bumps r ver + readEvents r p ≤ 2

/-- After EAGAIN: data that has come since brings an event, and too few events have come for the
version to wrap. -/
structure FailedFlight (r : Readiness) (p : PollerPc) (ver : BitVec 32) : Prop where
  registered : r.registered = true
  few : bumps r ver + readEvents r p ≤ 2 + r.readReady.toNat
  seen : r.readReady = true → 0 < bumps r ver + readEvents r p

def InFlight (r : Readiness) (p : PollerPc) : DoPc → Prop
  | .read _ _ _ ver _ => ReadFlight r p ver
  | .readFailed _ _ ver _ none => FailedFlight r p ver
  | _ => True

theorem inFlight_of_not_carries {r : Readiness} {p : PollerPc} {pc : DoPc}
    (h : pc.carries = false) : InFlight r p pc := by
  cases pc with
  | read => cases h
  | readFailed i cw ver hold err =>
    cases err with
    | none => cases h
    | some errno => trivial
  | _ => trivial

theorem InFlight.map {r r' : Readiness} {p p' : PollerPc} {pc : DoPc} (h : InFlight r p pc)
    (read : ∀ ver, ReadFlight r p ver → ReadFlight r' p' ver)
    (failed : ∀ ver, FailedFlight r p ver → FailedFlight r' p' ver) : InFlight r' p' pc := by
  cases pc with
  | read i cw cb ver hold => exact read ver h
  | readFailed i cw ver hold err =>
    cases err with
    | none => exact failed ver h
    | some errno => trivial
  | _ => trivial

structure Prompt (r : Readiness) (p : PollerPc) (tasks : List DoPc) : Prop where
  added : r.registered = r.started
  unread : r.registered = true → r.readReady = true → r.readable = true ∨ 0 < readEvents r p
  fresh : r.registered = false → r.readable = false ∧ readEvents r p = 0
  flight : ∀ pc ∈ tasks, InFlight r p pc
  write : r.registered = true → r.writeable = true ∨ r.interestWrite = true ∨
    (∃ i, .enable i ∈ tasks) ∨ ∃ event, p = .locking event ∧ event.write = true

theorem Prompt.init : Prompt Sys.init.world.readiness .idle [] where
  added := rfl
  unread := fun h => by cases h
  fresh := fun _ => ⟨rfl, rfl⟩
  flight := fun _ h => by cases h
  write := fun h => by cases h

theorem Prompt.add {r : Readiness} {p : PollerPc} {tasks : List DoPc} (inv : Prompt r p tasks)
    (fresh : r.started = false) : Prompt { r with
      started := true
      registered := true
      interestWrite := true
      queuedRead := r.readReady } p tasks where
  added := rfl
  unread := fun _ hready => by
    right
    simp only [readEvents] at hready ⊢
    rw [hready, Bool.toNat_true]
    omega
  fresh := nofun
  flight := fun pc hpc => by
    -- nothing is in flight before the descriptor is registered
    have hunreg : r.registered = false := inv.added.trans fresh
    exact (inv.flight pc hpc).map (fun _ h => nomatch hunreg.symm.trans h.registered)
      fun _ h => nomatch hunreg.symm.trans h.registered
  write := fun _ => .inr (.inl rfl)

/-- Data for an unready descriptor queues an event, other data changes nothing. -/
theorem arrive_events (r : Readiness) (p : PollerPc) (ready : Bool) (reg : r.registered = true)
    (more : r.readReady = true → ready = true) :
    let r' := { r with
      readReady := ready
      queuedRead := r.queuedRead || r.registered && !r.readReady && ready }
    r' = r ∨ r.readReady = false ∧ ready = true ∧ 0 < readEvents r' p ∧
      readEvents r' p ≤ readEvents r p + 1 := by
  obtain ⟨readable, ver, writeable, started, registered, interest, old, queued, error⟩ := r
  cases reg
  simp only [readEvents]
  cases old <;> cases ready <;> cases queued <;> simp at more ⊢
  all_goals omega

theorem Prompt.arrive {r : Readiness} {p : PollerPc} {tasks : List DoPc} (inv : Prompt r p tasks)
    (ready : Bool) (more : r.readReady = true → ready = true) : Prompt { r with
      readReady := ready
      queuedRead := r.queuedRead || r.registered && !r.readReady && ready } p tasks := by
  cases hr : r.registered with
  | false =>
    obtain ⟨hread, hzero⟩ := inv.fresh hr
    have hflight (r' : Readiness) (pc : DoPc) (hpc : pc ∈ tasks) : InFlight r' p pc :=
      (inv.flight pc hpc).map (fun _ h => nomatch hr.symm.trans h.registered)
        fun _ h => nomatch hr.symm.trans h.registered
    simp only [Bool.false_and, Bool.or_false]
    exact ⟨hr ▸ inv.added, nofun, fun _ => ⟨hread, hzero⟩, hflight _, nofun⟩
  | true =>
    rw [← hr]
    rcases arrive_events r p ready hr more with hsame | ⟨hold, rfl, hpos, hle⟩
    · rw [hsame]; exact inv
    · refine ⟨inv.added, fun _ _ => .inr hpos, fun h => (nomatch hr.symm.trans h), ?_, inv.write⟩
      intro pc hpc
      refine (inv.flight pc hpc).map (fun ver h => ⟨hr, nofun⟩) ?_
      intro ver h
      have hfew := h.few
      rw [hold, Bool.toNat_false] at hfew
      refine ⟨hr, ?_, fun _ => ?_⟩
      · simp only [Bool.toNat_true, bumps] at hfew ⊢
        omega
      · omega

theorem Prompt.change {r r' : Readiness} {p : PollerPc} {tasks : List DoPc}
    (inv : Prompt r p tasks) (h : Change r r') : Prompt r' p tasks := by
  cases h with
  | same => exact inv
  | add fresh => exact inv.add fresh
  | arrive ready more => exact inv.arrive ready more

/-! ## The poller thread -/

/-- An event on its way from epoll through `Disable` is still the same event. -/
theorem Prompt.forward {r r' : Readiness} {p p' : PollerPc} {tasks : List DoPc}
    (inv : Prompt r p tasks) (added : r'.registered = r.registered ∧ r'.started = r.started)
    (read : r'.readable = r.readable ∧ r'.readableVer = r.readableVer ∧ r'.readReady = r.readReady)
    (events : readEvents r' p' = readEvents r p)
    (write : r'.registered = true → r'.writeable = true ∨ r'.interestWrite = true ∨
      (∃ i, .enable i ∈ tasks) ∨ ∃ event, p' = .locking event ∧ event.write = true) :
    Prompt r' p' tasks where
  added := by rw [added.1, added.2]; exact inv.added
  unread := by rw [added.1, read.1, read.2.2, events]; exact inv.unread
  fresh := by rw [added.1, read.1, events]; exact inv.fresh
  flight := fun pc hpc => by
    refine (inv.flight pc hpc).map (fun ver h => ⟨added.1 ▸ h.registered, ?_⟩)
      fun ver h => ⟨added.1 ▸ h.registered, ?_, ?_⟩
    · rw [bumps, read.2.1, read.2.2, events]; exact h.few
    · rw [bumps, read.2.1, read.2.2, events]; exact h.few
    · rw [bumps, read.2.1, read.2.2, events]; exact h.seen
  write := write

theorem bump_succ (v l : BitVec 32) (h : (v - l).toNat < 4) :
    (v + 1 - l).toNat = (v - l).toNat + 1 := by
  have : v + 1 - l = v - l + 1 := by bv_omega
  have one : (1 : BitVec 32).toNat = 1 := rfl
  rw [this, BitVec.toNat_add_of_lt (by omega), one]

theorem setReady_readiness (w : World) (event : Event) (err : ℤ) :
    ({ w with sock := w.sock.setReady event err } : World).readiness = { w.readiness with
      readable := w.readiness.readable || event.read
      readableVer := if event.read then w.readiness.readableVer + 1 else w.readiness.readableVer
      writeable := w.readiness.writeable || event.write
      socketError := w.readiness.socketError || event.error } := by
  unfold World.readiness setReady
  cases event.read <;> cases event.write <;> cases event.error <;> simp

theorem Prompt.onActive {r : Readiness} {event : Event} {tasks : List DoPc}
    (inv : Prompt r (.locking event) tasks) : Prompt { r with
      readable := r.readable || event.read
      readableVer := if event.read then r.readableVer + 1 else r.readableVer
      writeable := r.writeable || event.write
      socketError := r.socketError || event.error } .idle tasks := by
  have hwrite : r.registered = true → (r.writeable || event.write) = true ∨
      r.interestWrite = true ∨ (∃ i, .enable i ∈ tasks) ∨
      ∃ e, PollerPc.idle = .locking e ∧ e.write = true := by
    intro hreg
    rcases inv.write hreg with h | h | h | ⟨e, he, h⟩
    · exact .inl (by rw [h, Bool.true_or])
    · exact .inr (.inl h)
    · exact .inr (.inr (.inl h))
    · cases he; exact .inl (by rw [h, Bool.or_true])
  cases hread : event.read with
  | false =>
    have hevents : readEvents r .idle = readEvents r (.locking event) := by
      simp [readEvents, PollerPc.holdsRead, hread]
    exact inv.forward ⟨rfl, rfl⟩ ⟨Bool.or_false _, rfl, rfl⟩ hevents hwrite
  | true =>
    have hevents : readEvents r (.locking event) = readEvents r .idle + 1 := by
      simp [readEvents, PollerPc.holdsRead, hread]
    have hreg : r.registered = true := by
      cases hr : r.registered
      · have := (inv.fresh hr).2; omega
      · rfl
    have hsum (ver : BitVec 32) (hlt : bumps r ver < 4) (r' : Readiness)
        (hver : r'.readableVer = r.readableVer + 1) (hq : r'.queuedRead = r.queuedRead) :
        bumps r' ver + readEvents r' .idle = bumps r ver + readEvents r (.locking event) := by
      have hbump : bumps r' ver = bumps r ver + 1 := by
        unfold bumps
        rw [hver, bump_succ _ _ hlt]
      have hsame : readEvents r' .idle = readEvents r .idle := by
        unfold readEvents
        rw [hq]
      omega
    refine ⟨inv.added, fun _ _ => .inl (Bool.or_true _), fun h => (nomatch hreg.symm.trans h), ?_,
      hwrite⟩
    intro pc hpc
    refine (inv.flight pc hpc).map (fun ver h => ⟨hreg, fun hready => ?_⟩)
      fun ver h => ⟨hreg, ?_, fun hready => ?_⟩
    · have hfew := h.few hready
      exact Nat.le_trans (Nat.le_of_eq (hsum ver (by omega) _ rfl rfl)) hfew
    · have hfew := h.few
      have := Bool.toNat_le r.readReady
      exact Nat.le_trans (Nat.le_of_eq (hsum ver (by omega) _ rfl rfl)) hfew
    · have hfew := h.few
      have := Bool.toNat_le r.readReady
      refine Nat.lt_of_lt_of_eq (h.seen hready) (Eq.symm ?_)
      exact hsum ver (by omega) _ rfl rfl

/-! ## The worker -/

theorem Prompt.worker {r r' : Readiness} {p : PollerPc} {pc : DoPc} {next : Option DoPc}
    (inv : Prompt r p [pc]) (h : Turn r pc r' next) (fine : r'.socketError = false) :
    Prompt r' p next.toList := by
  have hflight := inv.flight pc (List.mem_singleton.mpr rfl)
  have lone {r' : Readiness} {pc' : DoPc} (hf : InFlight r' p pc') :
      ∀ q ∈ (some pc').toList, InFlight r' p q := by
    intro q hq
    rw [Option.toList_some, List.mem_singleton] at hq
    rw [hq]; exact hf
  -- the task at `Enable` is this one, so it is the only turn that may use it up
  have hwrite (he : ∀ i, pc ≠ .enable i) : r.registered = true → r.writeable = true ∨
      r.interestWrite = true ∨ (∃ i, .enable i ∈ next.toList) ∨
      ∃ event, p = .locking event ∧ event.write = true := by
    intro hreg
    rcases inv.write hreg with h | h | ⟨i, h⟩ | h
    · exact .inl h
    · exact .inr (.inl h)
    · exact absurd (List.mem_singleton.mp h).symm (he i)
    · exact .inr (.inr (.inr h))
  cases h with
  | same he hn =>
    refine ⟨inv.added, inv.unread, inv.fresh, fun q hq => ?_, hwrite he⟩
    exact inFlight_of_not_carries (hn q (Option.mem_toList.mp hq))
  | take he readable =>
    have hreg : r.registered = true := by
      cases hr : r.registered
      · rw [(inv.fresh hr).1] at readable; cases readable
      · rfl
    refine ⟨inv.added, inv.unread, inv.fresh, lone ⟨hreg, fun _ => ?_⟩, hwrite he⟩
    have := Bool.toNat_le r.queuedRead
    have := Bool.toNat_le p.holdsRead
    simp only [bumps, readEvents, BitVec.sub_self, BitVec.toNat_zero]
    omega
  | readOk ready fewer hn =>
    refine ⟨inv.added, fun hreg hr => inv.unread hreg (fewer hr), inv.fresh,
      lone (inFlight_of_not_carries hn), hwrite (fun _ => nofun)⟩
  | again unready =>
    have hfew := hflight.few unready
    refine ⟨inv.added, inv.unread, inv.fresh, lone ⟨hflight.registered, ?_, ?_⟩,
      hwrite (fun _ => nofun)⟩
    · omega
    · rw [unready]; nofun
  | @clear pc' i cw ver hold same hn =>
    have hseen := hflight.seen
    have hzero : bumps r ver = 0 := by
      rw [bumps, same, BitVec.sub_self, BitVec.toNat_zero]
    rw [hzero, Nat.zero_add] at hseen
    exact ⟨inv.added, fun _ hr => .inr (hseen hr), fun h => ⟨rfl, (inv.fresh h).2⟩,
      lone (inFlight_of_not_carries hn), hwrite (fun _ => nofun)⟩
  | blocked =>
    exact ⟨inv.added, inv.unread, inv.fresh, lone trivial,
      fun _ => .inr (.inr (.inl ⟨_, List.mem_singleton.mpr rfl⟩))⟩
  | enable hn =>
    refine ⟨inv.added, inv.unread, inv.fresh, lone (inFlight_of_not_carries hn), fun hreg => ?_⟩
    have hreg' : r.registered = true := hreg
    exact .inr (.inl (by rw [hreg', Bool.or_true]))
  | failed => cases fine

/-! ## Runs of an edge-triggered poller -/

/-- epoll hands out what it has queued; an error may come with any event. -/
def edgeTriggered (s : Sys) : Label → Bool
  | .collect event =>
    (!event.read || s.world.kernel.queuedRead) && (!event.write || s.world.kernel.queuedWrite)
  | _ => true

theorem prompt_step {s s' : Sys} {a : Label} (h : Stepped s a s') (edge : edgeTriggered s a)
    (one : s.world.sock.closed = false → OneWorker s)
    (inv : s.world.sock.closed = false → s.world.sock.socketError = false →
      Prompt s.world.readiness s.poller s.tasks)
    (opened : s'.world.sock.closed = false) (fine : s'.world.sock.socketError = false) :
    Prompt s'.world.readiness s'.poller s'.tasks := by
  cases h with
  | @apiCall a r h =>
    have hchange := section_change h opened
    exact (inv (section_orderly h opened).opened (hchange.socketError.symm.trans fine)).change
      hchange
  | collect event idle =>
    have hinv := inv opened fine
    refine hinv.forward ⟨rfl, rfl⟩ ⟨rfl, rfl, rfl⟩ ?_ ?_
    · simp only [edgeTriggered, Bool.and_eq_true] at edge
      have hread := edge.1
      simp only [readEvents, World.readiness, PollerPc.holdsRead, idle]
      revert hread
      cases event.read <;> cases s.world.kernel.queuedRead <;> decide
    · intro hreg
      rcases hinv.write hreg with h | h | h | ⟨e, he, -⟩
      · exact .inl h
      · exact .inr (.inl h)
      · exact .inr (.inr (.inl h))
      · rw [idle] at he; cases he
  | @disable event entered =>
    have hinv := inv opened fine
    cases hw : event.write with
    | false =>
      refine hinv.forward ⟨rfl, rfl⟩ ⟨rfl, rfl, rfl⟩ ?_ ?_
      · simp only [readEvents, PollerPc.holdsRead, entered]; rfl
      · intro hreg
        rcases hinv.write hreg with h | h | h | ⟨e, he, -⟩
        · exact .inl h
        · exact .inr (.inl h)
        · exact .inr (.inr (.inl h))
        · rw [entered] at he; cases he
    | true =>
      obtain ⟨interest, hr⟩ := disable_readiness s.world
      simp only [↓reduceIte, hr]
      refine hinv.forward ⟨rfl, rfl⟩ ⟨rfl, rfl, rfl⟩ ?_ fun _ => .inr (.inr (.inr ⟨event, rfl, hw⟩))
      simp only [readEvents, PollerPc.holdsRead, entered]
  | @onActive event err locking =>
    obtain ⟨hc, -⟩ := setReady_frame s.world.sock event err
    simp only [Sys.unlock, TCPSocket.onActive, wake_eq] at opened fine ⊢
    have hr := setReady_readiness s.world event err
    have hfine : s.world.sock.socketError = false := by
      have h := congrArg Readiness.socketError hr
      have h' := h.symm.trans fine
      simp only [Bool.or_eq_false_iff] at h'
      exact h'.1
    have hinv := inv (hc.symm.trans opened) hfine
    rw [locking] at hinv
    have := hinv.onActive
    rw [← hr] at this
    exact this
  | post pos =>
    obtain ⟨hadd, hunread, hfresh, hflight, hwrite⟩ := inv opened fine
    refine ⟨hadd, hunread, hfresh, fun pc hpc => ?_, fun hreg => ?_⟩
    · rcases List.mem_append.mp hpc with hpc | hpc
      · exact hflight pc hpc
      · rw [List.mem_singleton.mp hpc]; trivial
    · rcases hwrite hreg with h | h | ⟨i, h⟩ | h
      · exact .inl h
      · exact .inr (.inl h)
      · exact .inr (.inr (.inl ⟨i, List.mem_append_left _ h⟩))
      · exact .inr (.inr (.inr h))
  | @worker k io pc o at_ move =>
    have ho : s.world.sock.closed = false := move_opened move opened
    have hturn := move_turn move opened
    obtain ⟨hone, hk⟩ := (one ho).single at_
    have hinv := inv ho (hturn.socketError fine)
    rw [hone] at hinv
    have := hinv.worker hturn fine
    cases hn : o.next <;> simpa [Sys.resume, hone, hk, hn] using this

/-- In every state a started socket reaches with an edge-triggered poller, while it is neither
closed nor errored: unread data is known or announced, and a socket that may not write is watched,
about to be watched, or about to be told. -/
theorem no_readiness_lost {b : Build} {s : Sys}
    (h : Machine.Runs (step b) (fun s a => edgeTriggered s a) Sys.init s)
    (started : s.world.sock.started = true) (opened : s.world.sock.closed = false)
    (fine : s.world.sock.socketError = false) :
    (s.world.kernel.readReady = true → s.world.sock.readable = true ∨
      s.world.kernel.queuedRead = true ∨ ∃ event, (s.poller = .entered event ∨
        s.poller = .locking event) ∧ event.read = true) ∧
    (s.world.sock.writeable = false → s.world.kernel.interestWrite = true ∨
      (∃ i, .enable i ∈ s.tasks) ∨ ∃ event, s.poller = .locking event ∧ event.write = true) := by
  have inv : Prompt s.world.readiness s.poller s.tasks := by
    refine h.invariant (I := fun s => s.world.sock.closed = false →
      s.world.sock.socketError = false → Prompt s.world.readiness s.poller s.tasks) ?_ ?_
      opened fine
    · exact fun _ _ => Prompt.init
    · intro u v a run inv edge hstep
      exact prompt_step (step_stepped hstep) edge (reachable_oneWorker run.reaches) inv
  have reg : s.world.kernel.registered = true := inv.added.trans started
  refine ⟨fun hready => ?_, fun hblocked => ?_⟩
  · refine (inv.unread reg hready).imp id fun hpos => ?_
    simp only [readEvents, World.readiness] at hpos
    cases hq : s.world.kernel.queuedRead with
    | true => exact .inl rfl
    | false =>
      rw [hq, Bool.toNat_false, Nat.zero_add] at hpos
      exact .inr (s.poller.holdsRead_pos hpos)
  · rcases inv.write reg with h | h
    · cases hblocked.symm.trans h
    · exact h

def blockedRun : List Label :=
  [.start, .send (some ⟨[7, 8], 0, 2⟩) 0, .writable, .collect ⟨false, true, false⟩, .disable,
    .onActive 0, .post, .worker 0 .again, .worker 0 .again, .worker 0 .again, .worker 0 .again,
    .worker 0 .again, .worker 0 .again, .arrive [1] false]

theorem no_readiness_lost_blocked : ∃ s : Sys,
    Machine.exec (Machine.guarded edgeTriggered (step ⟨false⟩)) Sys.init blockedRun = some s ∧
    s.tasks = [.enable 0] ∧ s.world.kernel.interestWrite = false ∧
    (s.world.kernel.readReady = true → s.world.sock.readable = true ∨
      s.world.kernel.queuedRead = true ∨ ∃ event, (s.poller = .entered event ∨
        s.poller = .locking event) ∧ event.read = true) ∧
    (s.world.sock.writeable = false → s.world.kernel.interestWrite = true ∨
      (∃ i, .enable i ∈ s.tasks) ∨ ∃ event, s.poller = .locking event ∧ event.write = true) := by
  have h : (Machine.exec (Machine.guarded edgeTriggered (step ⟨false⟩)) Sys.init blockedRun).map
      (fun s => (s.tasks, s.world.kernel.interestWrite, s.world.sock.started, s.world.sock.closed,
        s.world.sock.socketError)) = some ([.enable 0], false, true, false, false) := rfl
  obtain ⟨s, hs, hview⟩ := Option.map_eq_some_iff.mp h
  simp only [Prod.mk.injEq] at hview
  obtain ⟨htasks, hinterest, hstarted, hclosed, hfine⟩ := hview
  exact ⟨s, hs, htasks, hinterest, no_readiness_lost (b := ⟨false⟩)
    (Machine.Runs.of_exec blockedRun hs) hstarted hclosed hfine⟩

end Hwnet.TCPSocket
