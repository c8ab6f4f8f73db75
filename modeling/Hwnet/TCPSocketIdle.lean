import Hwnet.TCPSocketQuiet

set_option autoImplicit false

/-!
# Going idle

From any reachable state a socket with nothing to do goes idle exactly if none of the states ahead
is closed with `doing` set, or about to begin a pass with an error or with too much to send.
-/
namespace Hwnet.TCPSocket

/-! ## A closed socket -/

def DoPc.leaving : DoPc → Bool
  | .queued | .lock _ | .doClose | .closeCallback _ => true
  | _ => false

theorem leaving_fuel (s : TCPSocket) {pc : DoPc} (h : pc.leaving = true) :
    pc.fuel s = 40 * s.ready + pc.rank := by
  cases pc <;> first | rfl | cases h

structure Leaves (w : World) (pc : DoPc) (o : Outcome) : Prop where
  closed : o.world.sock.closed = true
  doing : o.world.sock.doing = w.sock.doing
  ready : o.world.sock.ready = w.sock.ready
  post : o.post = false
  next : ∀ q ∈ o.next, q.leaving = true ∧ q.rank < pc.rank

theorem evaluate_leaves {w : World} (i : ℕ) (closed : w.sock.closed = true) :
    Leaves w (.lock i) (evaluate w i) := by
  have h := evaluate_evaluated w i
  generalize evaluate w i = o at h
  cases h with
  | close =>
    refine ⟨closed, rfl, rfl, rfl, fun q hq => ?_⟩
    cases hq
    refine ⟨rfl, ?_⟩
    show 2 < 24 + lastPass i
    omega
  | idle opened | work opened => cases closed.symm.trans opened

theorem doLock_leaves {w : World} (i : ℕ) (closed : w.sock.closed = true) :
    Leaves w (.lock i) (doLock w i) := by
  have h := doLock_locked w i
  generalize doLock w i = o at h
  cases h with
  | claimSend bound opened | claimRecv bound opened => cases closed.symm.trans opened
  | @release t =>
    obtain ⟨hclosed, hdoing, hready, hpost, hnext⟩ :=
      evaluate_leaves (w := w.popClosure.releaseTimer t) i closed
    exact ⟨hclosed, hdoing, hready, hpost, hnext⟩
  | keep =>
    obtain ⟨hclosed, hdoing, hready, hpost, hnext⟩ := evaluate_leaves (w := w.popClosure) i closed
    exact ⟨hclosed, hdoing, hready, hpost, hnext⟩

theorem doStep_leaves (b : Build) {w : World} (io : Io) {pc : DoPc} (closed : w.sock.closed = true)
    (leaving : pc.leaving = true) : ∃ o, doStep b w io pc = some o ∧ Leaves w pc o := by
  cases pc with
  | queued =>
    refine ⟨_, rfl, closed, rfl, rfl, rfl, fun q hq => ?_⟩
    cases hq
    exact ⟨rfl, by decide⟩
  | lock i => exact ⟨_, rfl, doLock_leaves i closed⟩
  | doClose =>
    refine ⟨_, rfl, closed, rfl, rfl, rfl, fun q hq => ?_⟩
    cases hq
    exact ⟨rfl, Nat.lt_add_one 1⟩
  | closeCallback cb =>
    cases cb <;> exact ⟨_, rfl, closed, rfl, rfl, rfl, fun q hq => nomatch hq⟩
  | _ => cases leaving

theorem quietDo_leaving (b : Build) (w : World) {pc : DoPc} (leaving : pc.leaving = true) :
    quietDo b w pc = doStep b w .again pc := by
  cases pc <;> first | rfl | cases leaving

theorem close_doing (w : World) : (close w).1.sock.doing = w.sock.doing := by
  unfold close
  split
  · rfl
  · exact (cancelTimer_retimed (.refl w)).doing

theorem close_spins (w : World) : (close w).1.sock.spins = w.sock.spins := by
  unfold close
  split
  · rfl
  · obtain ⟨t, hsock⟩ := (cancelTimer_retimed (.refl w)).sock
    show (cancelTimer w).sock.spins = _
    rw [hsock]
    rfl

/-- A worker clears `doing` only at the end of Do, with nothing to do. -/
theorem move_doing {w : World} {pc : DoPc} {o : Outcome} (h : Move w pc o) :
    o.world.sock.doing = w.sock.doing ∨
      o.world.sock.closed = false ∧ w.sock.canRead = false ∧ w.sock.canWrite = false := by
  cases h with
  | quiet _ _ h => exact .inl h.doing
  | idle _ h opened read write => exact .inr ⟨h.closed.trans opened, read, write⟩
  | leave _ h => exact .inl h.doing
  | deliverFront => exact .inl (congrArg doing (noteReceived_sock _ _ _ _))
  | deliverList => exact .inl ((congrArg doing (noteReceived_sock _ _ _ _)).trans rfl)
  | @recvFinish _ _ hold => exact .inl (by cases hold <;> rfl)
  | @restoreClear _ _ _ hold | @restoreStale _ _ _ hold => exact .inl (by cases hold <;> rfl)
  | closing => exact .inl (close_doing w)
  | writtenOk last put =>
    obtain ⟨lists, rfl⟩ := putBackSend_frame put
    obtain ⟨l, act, hflushed, -⟩ := flushed_eq _ _ _
    rw [hflushed]
    exact .inl rfl
  | _ => exact .inl rfl

theorem spins_of_error {s : TCPSocket} (h : s.socketError = true) : s.spins = true := by
  rw [spins, h, Bool.true_or]

/-- Only the section after a successful write can end a spin. -/
theorem move_spins {w : World} {pc : DoPc} {o : Outcome} (h : Move w pc o)
    (settled : pc.unaccounted = false) (spin : w.sock.spins = true) :
    o.world.sock.spins = true := by
  have same {s : TCPSocket} (h : s.spins = w.sock.spins) : s.spins = true := h.trans spin
  have retimed {w' : World} (h : Retimed w w') : w'.sock.spins = true := by
    obtain ⟨t, hsock⟩ := h.sock
    rw [hsock]
    exact spin
  cases h with
  | quiet _ _ h => exact retimed h
  | idle _ h =>
    have hspins := retimed h
    exact hspins
  | leave _ h => exact retimed h
  | deliverFront => exact same (congrArg spins (noteReceived_sock _ _ _ _))
  | deliverList => exact same ((congrArg spins (noteReceived_sock _ _ _ _)).trans rfl)
  | @recvFinish _ _ hold => exact same (by cases hold <;> rfl)
  | @restoreClear _ _ _ hold | @restoreStale _ _ _ hold => exact same (by cases hold <;> rfl)
  | closing => exact same (close_spins w)
  | failed | writtenError => exact spins_of_error rfl
  | writtenOk => cases settled
  | _ => exact spin

/-- A socket that spins always has something to do. -/
theorem spins_able {s : TCPSocket} (spin : s.spins = true) (opened : s.closed = false)
    (read : s.canRead = false) : s.canWrite = true := by
  simp only [canRead, Bool.or_eq_false_iff] at read
  simp only [spins, read.2, Bool.false_or, Bool.and_eq_true, Bool.not_eq_true'] at spin
  simp [canWrite, opened, read.2, spin]

/-! ## What holds in every reachable state -/

structure Tidy (s : Sys) : Prop where
  oneWorker : s.world.sock.closed = false → OneWorker s
  loaded : s.world.sock.closed = false → ∀ pc ∈ s.tasks, pc.loaded s.world.sock
  leaving : s.world.sock.closed = true → s.world.sock.doing = false →
    ∀ pc ∈ s.tasks, pc.leaving = true

/-- A worker that is done with its step, in a closed socket with `doing` unset. -/
theorem leaving_resume {s : Sys} {k : ℕ} {pc : DoPc} {o : Outcome}
    (oneWorker : s.world.sock.closed = false → OneWorker s)
    (leaving : s.world.sock.closed = true → s.world.sock.doing = false →
      ∀ pc ∈ s.tasks, pc.leaving = true)
    (at_ : s.tasks[k]? = some pc) (same : o.world.sock.doing = s.world.sock.doing)
    (leaves : s.world.sock.closed = true → pc.leaving = true → Leaves s.world pc o)
    (idle : o.world.sock.doing = false) : ∀ q ∈ (s.resume k o).tasks, q.leaving = true := by
  cases hc : s.world.sock.closed with
  | false =>
    have hbusy := (oneWorker hc).busy_of_task (List.getElem?_eq_some_iff.mp at_).1
    cases (same.trans hbusy).symm.trans idle
  | true =>
    have hall := leaving hc (same.symm.trans idle)
    have hnext := (leaves hc (hall pc (List.mem_of_getElem? at_))).next
    intro q hq
    rcases of_mem_resume hq with hq | hq
    · exact hall q hq
    · exact (hnext q hq).1

theorem doStep_leaves_of {b : Build} {w : World} {io : Io} {pc : DoPc} {o : Outcome}
    (run : doStep b w io pc = some o) (closed : w.sock.closed = true)
    (leaving : pc.leaving = true) : Leaves w pc o := by
  obtain ⟨o', ho', hleaves⟩ := doStep_leaves b io closed leaving
  cases run.symm.trans ho'
  exact hleaves

theorem caller_tasks {s s' : Sys} {a : Label} (h : Stepped s a s')
    (away : ∀ k io, a ≠ .worker k io) : ∀ pc ∈ s'.tasks, pc ∈ s.tasks ∨ pc = .queued := by
  intro pc hpc
  cases h with
  | apiCall | collect | disable | onActive => exact .inl hpc
  | post => simpa using hpc
  | worker => exact absurd rfl (away _ _)

theorem leaving_step {b : Build} {s s' : Sys} {a : Label} (reach : Reachable b s)
    (h : step b s a = some s')
    (inv : s.world.sock.closed = true → s.world.sock.doing = false →
      ∀ pc ∈ s.tasks, pc.leaving = true)
    (closed : s'.world.sock.closed = true) (idle : s'.world.sock.doing = false) :
    ∀ pc ∈ s'.tasks, pc.leaving = true := by
  by_cases worker : ∃ k io, a = .worker k io
  · obtain ⟨k, io, rfl⟩ := worker
    obtain ⟨pc, o, at_, run, rfl⟩ := step_worker h
    refine leaving_resume (reachable_oneWorker reach) inv at_ ?_ (doStep_leaves_of run) idle
    rcases move_doing (doStep_move run) with hsame | ⟨opened, -⟩
    · exact hsame
    · cases opened.symm.trans closed
  · have away (k : ℕ) (io : Io) (ha : a = .worker k io) : False := worker ⟨k, io, ha⟩
    have hidle : s.world.sock.doing = false := by
      cases hd : s.world.sock.doing with
      | false => rfl
      | true => exact (caller_busy (step_stepped h) away hd).symm.trans idle
    have hbefore : ∀ pc ∈ s.tasks, pc.leaving = true := by
      cases hc : s.world.sock.closed with
      | true => exact inv hc hidle
      | false =>
        have hcount := (reachable_oneWorker reach hc).count
        rw [hidle, Bool.toNat_false] at hcount
        have hnil : s.tasks = [] := List.eq_nil_of_length_eq_zero (by omega)
        simp [hnil]
    intro pc hpc
    rcases caller_tasks (step_stepped h) away pc hpc with hpc | rfl
    · exact hbefore pc hpc
    · rfl

theorem reachable_tidy {b : Build} {s : Sys} (h : Reachable b s) : Tidy s := by
  refine ⟨reachable_oneWorker h, reachable_loaded h, ?_⟩
  refine h.invariant (I := fun s => s.world.sock.closed = true → s.world.sock.doing = false →
    ∀ pc ∈ s.tasks, pc.leaving = true) ?_ ?_
  · intro _ _ pc hpc
    cases hpc
  · intro u v a run inv _ hstep
    exact leaving_step run hstep inv

/-! ## A quiet step -/

theorem quietDo_eq (b : Build) (w : World) (pc : DoPc) :
    (∃ i cw cb ver hold, pc = .read i cw cb ver hold) ∨
      quietDo b w pc = doStep b w .again pc := by
  cases pc with
  | read i cw cb ver hold => exact .inl ⟨i, cw, cb, ver, hold, rfl⟩
  | _ => exact .inr rfl

theorem quietDo_cases {b : Build} {w : World} {pc : DoPc} {o : Outcome}
    (run : quietDo b w pc = some o) :
    (∃ i cw cb ver hold, pc = .read i cw cb ver hold ∧
      o = goto w (.readFailed i cw ver hold none)) ∨ Move w pc o := by
  rcases quietDo_eq b w pc with ⟨i, cw, cb, ver, hold, rfl⟩ | hsame
  · cases run
    exact .inl ⟨i, cw, cb, ver, hold, rfl, rfl⟩
  · exact .inr (doStep_move (hsame.symm.trans run))

theorem quietDo_doing {b : Build} {w : World} {pc : DoPc} {o : Outcome}
    (run : quietDo b w pc = some o) : o.world.sock.doing = w.sock.doing ∨
      o.world.sock.closed = false ∧ w.sock.canRead = false ∧ w.sock.canWrite = false := by
  rcases quietDo_cases run with ⟨i, cw, cb, ver, hold, rfl, rfl⟩ | hmove
  · exact .inl rfl
  · exact move_doing hmove

theorem quietDo_closed {b : Build} {w : World} {pc : DoPc} {o : Outcome}
    (run : quietDo b w pc = some o) (closed : w.sock.closed = true) :
    o.world.sock.closed = true := by
  rcases quietDo_cases run with ⟨i, cw, cb, ver, hold, rfl, rfl⟩ | hmove
  · exact closed
  · exact move_closed hmove closed

theorem quietDo_diligent {b : Build} {w : World} {pc : DoPc} {o : Outcome}
    (run : quietDo b w pc = some o) (stays : pc.closes = false)
    (opened : o.world.sock.closed = false) : Diligent w o := by
  rcases quietDo_cases run with ⟨i, cw, cb, ver, hold, rfl, rfl⟩ | hmove
  · exact diligent_goto rfl rfl
  · exact move_diligent hmove stays opened

theorem quietStep_worker {b : Build} {s s' : Sys} {k : ℕ}
    (h : quietStep b s (.worker k) = some s') :
    ∃ pc o, s.tasks[k]? = some pc ∧ quietDo b s.world pc = some o ∧ s' = s.resume k o := by
  simp only [quietStep, Option.map_eq_some_iff, Option.bind_eq_some_iff] at h
  obtain ⟨o, ⟨pc, at_, run⟩, rfl⟩ := h
  exact ⟨pc, o, at_, run, rfl⟩

theorem quietStep_post {b : Build} {s s' : Sys} (h : quietStep b s .post = some s') :
    0 < s.posting ∧ s' = { s with posting := s.posting - 1, tasks := s.tasks ++ [.queued] } := by
  simp only [quietStep, postStep] at h
  split at h
  · rename_i pos
    cases h
    exact ⟨pos, rfl⟩
  · cases h

theorem oneWorker_quiet {b : Build} {s s' : Sys} {a : QuietLabel}
    (inv : s.world.sock.closed = false → OneWorker s) (h : quietStep b s a = some s')
    (opened : s'.world.sock.closed = false) : OneWorker s' := by
  cases a with
  | post =>
    obtain ⟨pos, rfl⟩ := quietStep_post h
    exact oneWorker_step (.post pos) inv opened
  | worker k =>
    obtain ⟨pc, o, at_, run, rfl⟩ := quietStep_worker h
    have hopen : s.world.sock.closed = false := by
      cases hc : s.world.sock.closed with
      | false => rfl
      | true => exact (quietDo_closed run hc).symm.trans opened
    have hone := inv hopen
    exact hone.worker at_
      (quietDo_diligent run (hone.live pc (List.mem_of_getElem? at_)) opened)

/-! ## A spin -/

/-- The socket is closed with `doing` set, or Do is about to begin a pass that finds an error or
more to send than the high water mark. -/
def Sys.spins (s : Sys) : Bool :=
  if s.world.sock.closed then s.world.sock.doing
  else s.tasks.any (fun pc => pc.passes.isSome) && s.world.sock.spins

structure Spinning (s : Sys) : Prop where
  doing : s.world.sock.doing = true
  cause : s.world.sock.closed = true ∨
    s.world.sock.spins = true ∧ ∀ pc ∈ s.tasks, pc.unaccounted = false

theorem spinning_of_spins {s : Sys} (h : s.spins = true)
    (oneWorker : s.world.sock.closed = false → OneWorker s) : Spinning s := by
  unfold Sys.spins at h
  split at h
  · rename_i closed
    exact ⟨h, .inl closed⟩
  · rename_i opened
    rw [Bool.not_eq_true] at opened
    rw [Bool.and_eq_true, List.any_eq_true] at h
    obtain ⟨⟨pc, hpc, hpass⟩, hspins⟩ := h
    obtain ⟨k, at_⟩ := List.getElem?_of_mem hpc
    have hone := oneWorker opened
    refine ⟨hone.busy_of_task (List.getElem?_eq_some_iff.mp at_).1, .inr ⟨hspins, ?_⟩⟩
    rw [(hone.single at_).1]
    intro q hq
    rw [List.mem_singleton.mp hq]
    cases pc <;> first | rfl | cases hpass

theorem quiet_settled {pc : DoPc} (h : pc.quiet = true) : pc.unaccounted = false := by
  cases pc <;> first | rfl | cases h

theorem move_unaccounted {w : World} {pc q : DoPc} {o : Outcome} (h : Move w pc o)
    (next : o.next = some q) (pending : q.unaccounted = true) :
    ∃ i j ver, pc = .writev i j ver := by
  have calm (hq : q.quiet = true) : ∃ i j ver, pc = .writev i j ver := by
    cases (quiet_settled hq).symm.trans pending
  cases h with
  | quiet hq hq' => cases next; exact calm hq'
  | closing hq hq' => cases next; exact calm hq'
  | deliverList _ hnext =>
    cases next
    rcases hnext with rfl | ⟨-, rfl⟩
    · cases pending
    · exact calm (afterRecv_quiet _ _)
  | recvFinish => cases next; exact calm (afterRecv_quiet _ _)
  | restoreClear => cases next; exact calm (afterRecv_quiet _ _)
  | restoreStale => cases next; exact calm (afterRecv_quiet _ _)
  | writtenOk last put =>
    obtain ⟨l, act, hflushed, -⟩ := flushed_eq _ _ _
    rw [hflushed] at next
    cases next
    cases pending
  | writevAll | writevPart | writevAgain | writevError => exact ⟨_, _, _, rfl⟩
  | _ => cases next <;> cases pending

theorem quietDo_settled {b : Build} {w : World} {pc : DoPc} {o : Outcome}
    (run : quietDo b w pc = some o) : ∀ q ∈ o.next, q.unaccounted = false := by
  intro q hq
  rcases quietDo_cases run with ⟨i, cw, cb, ver, hold, rfl, rfl⟩ | hmove
  · cases hq
    rfl
  · cases hpending : q.unaccounted with
    | false => rfl
    | true =>
      obtain ⟨i, j, ver, rfl⟩ := move_unaccounted hmove hq hpending
      cases run
      cases hq
      cases hpending

theorem quietDo_spins {b : Build} {w : World} {pc : DoPc} {o : Outcome}
    (run : quietDo b w pc = some o) (settled : pc.unaccounted = false)
    (spin : w.sock.spins = true) : o.world.sock.spins = true := by
  rcases quietDo_cases run with ⟨i, cw, cb, ver, hold, rfl, rfl⟩ | hmove
  · exact spin
  · exact move_spins hmove settled spin

theorem spinning_quiet {b : Build} {s s' : Sys} {a : QuietLabel} (inv : Spinning s)
    (h : quietStep b s a = some s') : Spinning s' := by
  cases a with
  | post =>
    obtain ⟨-, rfl⟩ := quietStep_post h
    refine ⟨inv.doing, inv.cause.imp_right fun hcause => ⟨hcause.1, fun pc hpc => ?_⟩⟩
    rcases List.mem_append.mp hpc with hpc | hpc
    · exact hcause.2 pc hpc
    · rw [List.mem_singleton.mp hpc]
      rfl
  | worker k =>
    obtain ⟨pc, o, at_, run, rfl⟩ := quietStep_worker h
    have hdoing : o.world.sock.doing = true := by
      rcases quietDo_doing run with hsame | ⟨hopen, hread, hwrite⟩
      · exact hsame.trans inv.doing
      · rcases inv.cause with hclosed | ⟨hspins, -⟩
        · cases (quietDo_closed run hclosed).symm.trans hopen
        · cases hc : s.world.sock.closed with
          | true => cases (quietDo_closed run hc).symm.trans hopen
          | false => cases (spins_able hspins hc hread).symm.trans hwrite
    refine ⟨hdoing, ?_⟩
    rcases inv.cause with hclosed | ⟨hspins, hsettled⟩
    · exact .inl (quietDo_closed run hclosed)
    · right
      refine ⟨quietDo_spins run (hsettled pc (List.mem_of_getElem? at_)) hspins, fun q hq => ?_⟩
      rcases of_mem_resume hq with hq | hq
      · exact hsettled q hq
      · exact quietDo_settled run q hq

/-- Nothing ends a spin. -/
theorem spinning_restless {b : Build} {s : Sys} (h : Spinning s) :
    ¬ Machine.Settles (quietStep b) Sys.Idle s := by
  intro hsettles
  obtain ⟨t, run, hidle⟩ := hsettles.ends
  have hspinning : Spinning t := run.invariant h fun _ _ _ _ inv _ hstep => spinning_quiet inv hstep
  cases hspinning.doing.symm.trans hidle.doing

/-! ## Burning fuel -/

theorem rank_pos (pc : DoPc) : 0 < pc.rank := by
  cases pc <;> simp only [DoPc.rank] <;> omega

theorem rank_le_fuel (s : TCPSocket) (pc : DoPc) : pc.rank ≤ pc.fuel s :=
  Nat.le_add_left _ _

def Sys.fuel (s : Sys) : ℕ :=
  (s.tasks.map (DoPc.fuel s.world.sock)).sum + s.posting * (40 * s.world.sock.ready + 26)

theorem post_burns {s : Sys} (pos : 0 < s.posting) :
    Sys.fuel { s with posting := s.posting - 1, tasks := s.tasks ++ [.queued] } < s.fuel := by
  obtain ⟨n, hn⟩ : ∃ n, s.posting = n + 1 := ⟨s.posting - 1, by omega⟩
  have hqueued : DoPc.queued.fuel s.world.sock = 40 * s.world.sock.ready + 25 := rfl
  simp only [Sys.fuel, hn, Nat.add_sub_cancel, List.map_append, List.map_singleton,
    List.sum_append, List.sum_singleton, hqueued, Nat.add_mul, Nat.one_mul]
  omega

theorem worker_burns {b : Build} {s : Sys} {k : ℕ} {pc : DoPc} {o : Outcome} (tidy : Tidy s)
    (calm : s.spins = false) (opened : s.world.sock.closed = false)
    (at_ : s.tasks[k]? = some pc) (run : quietDo b s.world pc = some o)
    (still : (s.resume k o).spins = false) :
    o.world.sock.closed = false ∧ (∀ q ∈ o.next, q.loaded o.world.sock) ∧
      (s.resume k o).fuel < s.fuel := by
  have hone := tidy.oneWorker opened
  have hmem := List.mem_of_getElem? at_
  have hbusy := hone.busy_of_task (List.getElem?_eq_some_iff.mp at_).1
  obtain ⟨htasks, rfl⟩ := hone.single at_
  have hcalm : pc.passes.isSome = true → s.world.sock.spins = false := by
    intro hpass
    simpa [Sys.spins, opened, htasks, hpass] using calm
  obtain ⟨o', ho', hdescends⟩ := quietDo_descends (b := b) opened (hone.live pc hmem)
    (tidy.loaded opened pc hmem) hcalm
  cases run.symm.trans ho'
  have hopen : o.world.sock.closed = false := by
    cases hc : o.world.sock.closed with
    | false => rfl
    | true =>
      rcases quietDo_doing run with hsame | ⟨hopen, -⟩
      · have hspins : (s.resume 0 o).spins = true := by
          simp [Sys.spins, Sys.resume, hc, hsame, hbusy]
        cases hspins.symm.trans still
      · exact hc.symm.trans hopen
  rcases hdescends with hclosed | hnext
  · cases hclosed.symm.trans hopen
  · refine ⟨hopen, fun q hq => (hnext q hq).1, ?_⟩
    have hcount := hone.count
    rw [htasks, hbusy, List.length_singleton, Bool.toNat_true] at hcount
    have hpost := (quietDo_diligent run (hone.live pc hmem) hopen).post
    have hposting : s.posting = 0 := by omega
    have hbefore : s.fuel = pc.fuel s.world.sock := by
      simp [Sys.fuel, htasks, hposting]
    have := rank_pos pc
    have := rank_le_fuel s.world.sock pc
    cases hn : o.next with
    | none =>
      have hafter : (s.resume 0 o).fuel = 0 := by
        simp [Sys.fuel, Sys.resume, hn, htasks, hposting, hpost]
      omega
    | some q =>
      have hafter : (s.resume 0 o).fuel = q.fuel o.world.sock := by
        simp [Sys.fuel, Sys.resume, hn, htasks, hposting, hpost]
      have := (hnext q hn).2
      omega

theorem leaving_burns {s : Sys} {k : ℕ} {pc : DoPc} {o : Outcome}
    (leaving : ∀ pc ∈ s.tasks, pc.leaving = true) (at_ : s.tasks[k]? = some pc)
    (leaves : Leaves s.world pc o) : (s.resume k o).fuel < s.fuel := by
  have hsame : s.tasks.map (DoPc.fuel o.world.sock) = s.tasks.map (DoPc.fuel s.world.sock) := by
    refine List.map_congr_left fun q hq => ?_
    rw [leaving_fuel _ (leaving q hq), leaving_fuel _ (leaving q hq), leaves.ready]
  have hpc := leaving_fuel o.world.sock (leaving pc (List.mem_of_getElem? at_))
  have := rank_pos pc
  cases hn : o.next with
  | none =>
    have hsum := Machine.sum_eraseIdx_add (DoPc.fuel o.world.sock) at_
    rw [hsame] at hsum
    simp only [Sys.fuel, Sys.resume, hn, leaves.post, Bool.toNat_false, Nat.add_zero, leaves.ready]
    omega
  | some q =>
    obtain ⟨hleaving, hrank⟩ := leaves.next q hn
    have hsum := Machine.sum_set_add (DoPc.fuel o.world.sock) at_ q
    have hq := leaving_fuel o.world.sock hleaving
    rw [hsame] at hsum
    simp only [Sys.fuel, Sys.resume, hn, leaves.post, Bool.toNat_false, Nat.add_zero, leaves.ready]
    omega

theorem quietStep_burns {b : Build} {s s' : Sys} {a : QuietLabel} (tidy : Tidy s)
    (calm : s.spins = false) (h : quietStep b s a = some s') (still : s'.spins = false) :
    Tidy s' ∧ s'.fuel < s.fuel := by
  have hone := oneWorker_quiet tidy.oneWorker h
  cases a with
  | post =>
    obtain ⟨pos, rfl⟩ := quietStep_post h
    refine ⟨⟨hone, fun opened pc hpc => ?_, fun closed idle pc hpc => ?_⟩, post_burns pos⟩
    · rcases List.mem_append.mp hpc with hpc | hpc
      · exact tidy.loaded opened pc hpc
      · rw [List.mem_singleton.mp hpc]
        trivial
    · rcases List.mem_append.mp hpc with hpc | hpc
      · exact tidy.leaving closed idle pc hpc
      · rw [List.mem_singleton.mp hpc]
        rfl
  | worker k =>
    obtain ⟨pc, o, at_, run, rfl⟩ := quietStep_worker h
    cases hc : s.world.sock.closed with
    | false =>
      obtain ⟨hopen, hloaded, hless⟩ := worker_burns tidy calm hc at_ run still
      refine ⟨⟨hone, fun _ q hq => ?_, fun closed => ?_⟩, hless⟩
      · obtain ⟨htasks, rfl⟩ := (tidy.oneWorker hc).single at_
        rw [resume_sole htasks, Option.mem_toList] at hq
        exact hloaded q hq
      · cases hopen.symm.trans closed
    | true =>
      have hidle : s.world.sock.doing = false := by simpa [Sys.spins, hc] using calm
      have hleaving := tidy.leaving hc hidle
      have hpc := hleaving pc (List.mem_of_getElem? at_)
      have hleaves : Leaves s.world pc o :=
        doStep_leaves_of ((quietDo_leaving b s.world hpc).symm.trans run) hc hpc
      refine ⟨⟨hone, fun opened => ?_, fun _ idle => ?_⟩, leaving_burns hleaving at_ hleaves⟩
      · cases hleaves.closed.symm.trans opened
      · exact leaving_resume tidy.oneWorker tidy.leaving at_ hleaves.doing
          (fun _ _ => hleaves) idle

theorem quiet_stop {b : Build} {s : Sys} (tidy : Tidy s) (calm : s.spins = false)
    (stop : ∀ a, quietStep b s a = none) : s.Idle := by
  have hposting : s.posting = 0 := by
    by_contra hpos
    have hpost := stop .post
    simp [quietStep, postStep, Nat.pos_of_ne_zero hpos] at hpost
  have htasks : s.tasks = [] := by
    by_contra hsome
    obtain ⟨pc, rest, hlist⟩ := List.exists_cons_of_ne_nil hsome
    have hmem : pc ∈ s.tasks := by rw [hlist]; exact List.mem_cons_self
    have hgoes : ∃ o, quietDo b s.world pc = some o := by
      cases hc : s.world.sock.closed with
      | false =>
        have hone := tidy.oneWorker hc
        have hcalm : pc.passes.isSome = true → s.world.sock.spins = false := by
          intro hpass
          by_contra hspins
          rw [Bool.not_eq_false] at hspins
          simp [Sys.spins, hc, hlist, hpass, hspins] at calm
        obtain ⟨o, ho, -⟩ := quietDo_descends (b := b) hc (hone.live pc hmem)
          (tidy.loaded hc pc hmem) hcalm
        exact ⟨o, ho⟩
      | true =>
        have hidle : s.world.sock.doing = false := by simpa [Sys.spins, hc] using calm
        have hleaving := tidy.leaving hc hidle pc hmem
        obtain ⟨o, ho, -⟩ := doStep_leaves b .again hc hleaving
        exact ⟨o, (quietDo_leaving b s.world hleaving).trans ho⟩
    obtain ⟨o, ho⟩ := hgoes
    have hworker := stop (.worker 0)
    simp [quietStep, hlist, ho] at hworker
  refine ⟨?_, htasks, hposting⟩
  cases hc : s.world.sock.closed with
  | false =>
    have hcount := (tidy.oneWorker hc).count
    rw [htasks, hposting] at hcount
    cases hd : s.world.sock.doing with
    | false => rfl
    | true =>
      rw [hd] at hcount
      cases hcount
  | true => simpa [Sys.spins, hc] using calm

/-- With no calls, timers or events, callbacks that return and every read and writev answered by
EAGAIN, a socket comes to rest from a reachable state exactly if no state ahead of it spins. -/
theorem goes_idle_iff {b : Build} {s : Sys} (h : Reachable b s) :
    Machine.Settles (quietStep b) Sys.Idle s ↔
      ∀ t, Machine.Reaches (quietStep b) s t → t.spins = false := by
  constructor
  · intro hsettles t run
    by_contra hspins
    rw [Bool.not_eq_false] at hspins
    have hone : t.world.sock.closed = false → OneWorker t :=
      run.invariant (I := fun t => t.world.sock.closed = false → OneWorker t)
        (reachable_oneWorker h) fun _ _ _ _ inv _ hstep => oneWorker_quiet inv hstep
    exact spinning_restless (spinning_of_spins hspins hone) (hsettles.reached run)
  · intro calm
    refine Machine.Settles.of_measure
      (I := fun t => Machine.Reaches (quietStep b) s t ∧ Tidy t) Sys.fuel ?_ ?_
      ⟨.refl, reachable_tidy h⟩
    · intro u a v ⟨run, tidy⟩ hstep
      have hnext : Machine.Reaches (quietStep b) s v := .next run trivial hstep
      obtain ⟨htidy, hless⟩ := quietStep_burns tidy (calm u run) hstep (calm v hnext)
      exact ⟨⟨hnext, htidy⟩, hless⟩
    · intro u ⟨run, tidy⟩ stop
      exact quiet_stop tidy (calm u run) stop

/-! ## A socket that never spins -/

/-- The places of a task that has met neither data nor an error. -/
def DoPc.eased : DoPc → Bool
  | .queued | .lock _ | .sendTimeout .. | .recvTimeout .. | .body .. | .recvInWorker .. => true
  | .read .. | .readFailed _ _ _ _ none | .sendInWorker _ | .writev .. => true
  | .written _ _ _ .again _ _ | .enable _ | .sendAction _ .nothing => true
  | _ => false

structure EasedWorld (w : World) : Prop where
  opened : w.sock.closed = false
  fine : w.sock.socketError = false
  low : w.sock.highWaterSize = 0

theorem EasedWorld.spins {w : World} (h : EasedWorld w) : w.sock.spins = false := by
  simp [TCPSocket.spins, highWater, h.fine, h.low]

theorem EasedWorld.retimed {w w' : World} (h : EasedWorld w) (time : Retimed w w') :
    EasedWorld w' := by
  obtain ⟨t, hsock⟩ := time.sock
  refine ⟨?_, ?_, ?_⟩ <;> rw [hsock]
  exacts [h.opened, h.fine, h.low]

structure EasedOutcome (o : Outcome) : Prop where
  world : EasedWorld o.world
  next : ∀ q ∈ o.next, q.eased = true

theorem easedOutcome_goto {w : World} {pc : DoPc} (h : EasedWorld w) (eased : pc.eased = true) :
    EasedOutcome (goto w pc) := by
  refine ⟨h, fun q hq => ?_⟩
  cases hq
  exact eased

theorem afterRecv_eased (i : ℕ) (cw : Bool) : (afterRecv i cw).eased = true := by
  cases cw <;> rfl

theorem evaluate_eased {w : World} (i : ℕ) (h : EasedWorld w) : EasedOutcome (evaluate w i) := by
  have heval := evaluate_evaluated w i
  generalize evaluate w i = o at heval
  cases heval with
  | close closed => cases h.opened.symm.trans closed
  | idle => exact ⟨⟨h.opened, h.fine, h.low⟩, fun q hq => nomatch hq⟩
  | work => exact easedOutcome_goto h rfl

theorem locked_eased {w : World} {i : ℕ} {ts : List TimerId} {o : Outcome}
    (locked : Locked w i ts o) (h : EasedWorld w) : EasedOutcome o := by
  cases locked with
  | claimSend | claimRecv => exact easedOutcome_goto ⟨h.opened, h.fine, h.low⟩ rfl
  | release => exact evaluate_eased i ⟨h.opened, h.fine, h.low⟩
  | keep => exact evaluate_eased i h

theorem doBody_eased {w : World} (i : ℕ) (cr cw : Bool) (h : EasedWorld w) :
    EasedOutcome (doBody w i cr cw) := by
  unfold doBody
  split_ifs <;> exact easedOutcome_goto h rfl

theorem recvTake_eased {b : Build} {w : World} {i : ℕ} {cw : Bool} {o : Outcome}
    (run : recvTake b w i cw = some o) (h : EasedWorld w) : EasedOutcome o := by
  unfold recvTake at run
  dsimp only at run
  split_ifs at run with hread herror gather
  · cases run
    exact easedOutcome_goto h (afterRecv_eased i cw)
  · cases h.fine.symm.trans herror
  · cases run
    exact easedOutcome_goto ⟨h.opened, h.fine, h.low⟩ rfl
  · split at run
    · cases run
    · cases run
      exact easedOutcome_goto ⟨h.opened, h.fine, h.low⟩ rfl

theorem readFailed_eased {w : World} (i : ℕ) (cw : Bool) (ver : BitVec 32) (hold : Hold)
    (h : EasedWorld w) : EasedOutcome (readFailedStep w i cw ver hold none) := by
  obtain ⟨lists, hlists⟩ := hold.restore_frame w.sock
  unfold readFailedStep
  dsimp only
  rw [hlists]
  refine easedOutcome_goto ?_ (afterRecv_eased i cw)
  split <;> exact ⟨h.opened, h.fine, h.low⟩

theorem sendTake_eased {w : World} (i : ℕ) (h : EasedWorld w) : EasedOutcome (sendTake w i) := by
  have hlow : w.sock.highWater = false := by simp [highWater, h.low]
  unfold sendTake
  simp only [hlow, Bool.and_false, Bool.false_eq_true, if_false]
  split
  · exact easedOutcome_goto h rfl
  · exact easedOutcome_goto ⟨h.opened, h.fine, h.low⟩ rfl

theorem writtenAgain_eased {w : World} (i : ℕ) (j : Fin 2) (ver : BitVec 32) (h : EasedWorld w) :
    EasedOutcome (writtenAgain w i j ver) := by
  unfold writtenAgain
  dsimp only
  split <;> exact easedOutcome_goto ⟨h.opened, h.fine, h.low⟩ rfl

/-- EAGAIN to every read and writev leads neither to data nor to an error. -/
theorem quietDo_eased {b : Build} {w : World} {pc : DoPc} {o : Outcome} (h : EasedWorld w)
    (eased : pc.eased = true) (run : quietDo b w pc = some o) : EasedOutcome o := by
  have pass {i : ℕ} (hpass : pc.passes = some i) (same : quietDo b w pc = doStep b w .again pc) :
      EasedOutcome o := by
    refine locked_eased (doStep_locked (same.symm.trans run) hpass) ?_
    cases pc <;> exact ⟨h.opened, h.fine, h.low⟩
  cases pc with
  | queued | read | enable => cases run; exact easedOutcome_goto ⟨h.opened, h.fine, h.low⟩ rfl
  | lock | sendTimeout | recvTimeout => exact pass rfl rfl
  | body i cr cw => cases run; exact doBody_eased i cr cw h
  | recvInWorker => exact recvTake_eased run h
  | readFailed i cw ver hold err =>
    cases err with
    | none => cases run; exact readFailed_eased i cw ver hold h
    | some => cases eased
  | sendInWorker i => cases run; exact sendTake_eased i h
  | writev => cases run; exact easedOutcome_goto ⟨h.opened, h.fine, h.low⟩ rfl
  | written i j ver io =>
    cases io with
    | again => cases run; exact writtenAgain_eased i j ver h
    | _ => cases eased
  | sendAction i act =>
    cases act with
    | nothing => cases run; exact easedOutcome_goto h rfl
    | _ => cases eased
  | _ => cases eased

structure Eased (s : Sys) : Prop where
  world : EasedWorld s.world
  tasks : ∀ pc ∈ s.tasks, pc.eased = true

theorem eased_quiet {b : Build} {s s' : Sys} {a : QuietLabel} (inv : Eased s)
    (h : quietStep b s a = some s') : Eased s' := by
  cases a with
  | post =>
    obtain ⟨-, rfl⟩ := quietStep_post h
    refine ⟨inv.world, fun pc hpc => ?_⟩
    rcases List.mem_append.mp hpc with hpc | hpc
    · exact inv.tasks pc hpc
    · rw [List.mem_singleton.mp hpc]
      rfl
  | worker k =>
    obtain ⟨pc, o, at_, run, rfl⟩ := quietStep_worker h
    have heased := quietDo_eased inv.world (inv.tasks pc (List.mem_of_getElem? at_)) run
    refine ⟨heased.world, fun q hq => ?_⟩
    rcases of_mem_resume hq with hq | hq
    · exact inv.tasks q hq
    · exact heased.next q hq

/-- An open socket without an error and without a high water mark never spins. -/
theorem eased_calm {b : Build} {s t : Sys} (h : Eased s)
    (run : Machine.Reaches (quietStep b) s t) : t.spins = false := by
  have heased : Eased t := run.invariant h fun _ _ _ _ inv _ hstep => eased_quiet inv hstep
  simp [Sys.spins, heased.world.opened, heased.world.spins]

def bothSidesRun : List Label :=
  [.start, .setRecvCallback (some 1), .recv (some ⟨0, 0, 4⟩), .send (some ⟨[7, 8, 9], 0, 3⟩) 0,
    .arrive [5] false, .writable, .collect ⟨true, true, false⟩, .disable, .onActive 0]

theorem goes_idle_both_sides : ∃ s : Sys,
    Machine.exec (step ⟨false⟩) Sys.init bothSidesRun = some s ∧ s.posting = 1 ∧
    s.world.sock.closed = false ∧ s.world.sock.canRead = true ∧ s.world.sock.canWrite = true ∧
    Machine.Settles (quietStep ⟨false⟩) Sys.Idle s := by
  have h : (Machine.exec (step ⟨false⟩) Sys.init bothSidesRun).map (fun s =>
      (s.posting, s.tasks, s.world.sock.closed, s.world.sock.socketError,
        s.world.sock.highWaterSize, s.world.sock.canRead, s.world.sock.canWrite)) =
      some (1, [], false, false, 0, true, true) := rfl
  obtain ⟨s, hs, hview⟩ := Option.map_eq_some_iff.mp h
  simp only [Prod.mk.injEq] at hview
  obtain ⟨hposting, htasks, hopen, hfine, hlow, hread, hwrite⟩ := hview
  have heased : Eased s := ⟨⟨hopen, hfine, hlow⟩, by simp [htasks]⟩
  exact ⟨s, hs, hposting, hopen, hread, hwrite,
    (goes_idle_iff (Machine.Reaches.of_exec _ hs)).mpr fun t run => eased_calm heased run⟩

def highWaterRun : List Label :=
  [.start, .setHighWater none 1, .send (some ⟨[7, 8, 9], 0, 3⟩) 0]

theorem high_water_restless : ∃ s : Sys,
    Machine.exec (step ⟨false⟩) Sys.init highWaterRun = some s ∧ Reachable ⟨false⟩ s ∧
    ¬ Machine.Settles (quietStep ⟨false⟩) Sys.Idle s := by
  have h : (Machine.exec (step ⟨false⟩) Sys.init highWaterRun).map (fun s =>
      (s.tasks, s.world.sock.doing, s.world.sock.spins)) = some ([], true, true) := rfl
  obtain ⟨s, hs, hview⟩ := Option.map_eq_some_iff.mp h
  simp only [Prod.mk.injEq] at hview
  obtain ⟨htasks, hdoing, hspins⟩ := hview
  refine ⟨s, hs, Machine.Reaches.of_exec _ hs, spinning_restless ⟨hdoing, .inr ⟨hspins, ?_⟩⟩⟩
  simp [htasks]

end Hwnet.TCPSocket
