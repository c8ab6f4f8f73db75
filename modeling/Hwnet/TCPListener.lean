import Mathlib.Algebra.GroupWithZero.Nat
import Mathlib.Data.Int.Notation
import Hwnet.Machine

set_option autoImplicit false

/-!
# The listener

The poller is edge-triggered, so the accept loop runs until EAGAIN, and `readableVer` tells it of
the events that come meanwhile. Every section with the mutex is one step. `Start` is a function up
to the Add; the rest of it runs beside the others.
-/
namespace Hwnet

namespace TCPListener

abbrev Callback := ℕ

def EAGAIN : ℤ := 11
def EMFILE : ℤ := 24
def EPROTO : ℤ := 71
def ECONNABORTED : ℤ := 103

def ReadFlag : BitVec 32 := 1

end TCPListener

structure TCPListener where
  fd : ℤ
  onNewConn : Option TCPListener.Callback
  onError : Option TCPListener.Callback
  started : Bool
  stop : Bool
  readableVer : BitVec 32
  doing : Bool
  deriving DecidableEq, Repr

namespace TCPListener

def new : TCPListener := ⟨-1, none, none, false, false, 0, false⟩

/-- `Start` up to Add, or to where it fails; `socket`, `bind` and `listen` are what the calls of
these names return. -/
def start (l : TCPListener) (onNewConn onError : Option Callback) (valid : Bool)
    (socket bind listen : ℤ) : TCPListener × Bool :=
  if onNewConn.isNone then (l, false)
  else if !valid then (l, false)
  else if l.started then (l, false)
  else if socket < 0 then ({ l with fd := socket, started := false }, false)
  else if bind ≠ 0 then ({ l with fd := -1, started := false }, false)
  else if listen ≠ 0 then ({ l with fd := -1, started := false }, false)
  else ({ l with fd := socket, started := true, onNewConn, onError }, true)

def Started (l : TCPListener) : Prop :=
  ∃ (onNewConn onError : Option Callback) (valid : Bool) (socket bind listen : ℤ),
    new.start onNewConn onError valid socket bind listen = (l, true)

/-! ## The threads -/

inductive Answer where
  | conn (fd : ℤ)
  | error (errno : ℤ)
  deriving DecidableEq, Repr

/-- Where a `Do` stands. `seen` is the number of readable events there had been when it read the
version; the code does not have it. -/
inductive DoPc where
  | version
  | accept (localVer : BitVec 32) (seen : ℕ)
  | newConn (fd : ℤ)
  | check (localVer : BitVec 32) (seen : ℕ)
  | failed (err : ℤ)
  | testStop
  deriving DecidableEq, Repr

inductive Event where
  | readable
  | again
  | newConn (cb : Option Callback) (fd : ℤ)
  | error (cb : Callback) (err : ℤ)
  deriving DecidableEq, Repr

/-- `starting` is whether `Start` has yet to return, `posting` the number of threads that hold
`post = true` and have not reached PostTask, `events` the number of readable events so far. -/
structure Sys where
  listener : TCPListener
  starting : Bool
  posting : ℕ
  tasks : List DoPc
  events : ℕ
  log : List Event
  deriving DecidableEq, Repr

def Sys.start (l : TCPListener) : Sys := ⟨l, true, 0, [], 0, []⟩

inductive Label where
  | startReturns
  | onActive (event : BitVec 32)
  | post
  | run (i : ℕ) (answer : Answer)
  | stop
  deriving DecidableEq, Repr

def onActive (s : Sys) (event : BitVec 32) : Sys :=
  let s :=
    if event &&& ReadFlag ≠ 0 then
      { s with
        listener.readableVer := s.listener.readableVer + 1
        events := s.events + 1
        log := s.log ++ [.readable] }
    else s
  if s.listener.doing then s
  else { s with listener.doing := true, posting := s.posting + 1 }

/-- `accept` tries again after EPROTO and ECONNABORTED. -/
def accept (s : Sys) (localVer : BitVec 32) (seen : ℕ) : Answer → Sys × DoPc
  | .conn fd => (s, .newConn fd)
  | .error errno =>
    if errno = EPROTO ∨ errno = ECONNABORTED then (s, .accept localVer seen)
    else if errno = EAGAIN then ({ s with log := s.log ++ [.again] }, .check localVer seen)
    else if s.listener.onError.isSome then (s, .failed errno)
    else (s, .testStop)

def doStep (s : Sys) (answer : Answer) : DoPc → Sys × Option DoPc
  | .version => (s, some (.accept s.listener.readableVer s.events))
  | .accept localVer seen =>
    let (s, pc) := accept s localVer seen answer
    (s, some pc)
  | .newConn fd =>
    ({ s with log := s.log ++ [.newConn s.listener.onNewConn fd] }, some .testStop)
  | .check localVer _ =>
    if localVer = s.listener.readableVer then ({ s with listener.doing := false }, none)
    else (s, some .testStop)
  | .failed err =>
    match s.listener.onError with
    | some cb => ({ s with log := s.log ++ [.error cb err] }, none)
    | none => (s, none)
  | .testStop => if s.listener.stop then (s, none) else (s, some .version)

/-- `_start` returns false in the end, so `Start` takes `started` back. `Stop` goes on to remove and
close the descriptor. -/
def step (s : Sys) : Label → Option Sys
  | .startReturns =>
    if s.starting then some { s with starting := false, listener.started := false } else none
  | .onActive event => some (onActive s event)
  | .post =>
    if 0 < s.posting then
      some { s with posting := s.posting - 1, tasks := s.tasks ++ [.version] }
    else none
  | .run i answer => do
    let pc ← s.tasks[i]?
    let (s, next) := doStep s answer pc
    return { s with
      tasks := match next with
        | some pc => s.tasks.set i pc
        | none => s.tasks.eraseIdx i }
  | .stop =>
    if s.listener.started ∧ ¬ s.listener.stop then some { s with listener.stop := true } else some s

/-! ## Deafness -/

def unread (log : List Event) : Bool :=
  log.foldl (fun arrived e =>
    match e with
    | .readable => true
    | .again => false
    | _ => arrived) false

def Answer.fatal : Answer → Bool
  | .conn _ => false
  | .error errno => errno ≠ EPROTO ∧ errno ≠ ECONNABORTED ∧ errno ≠ EAGAIN

/-- No fatal answer while there is a callback for errors, and no check of the version that comes with
unread events and a multiple of 2^32 events since the version was read. -/
def hears (s : Sys) : Label → Bool
  | .run i answer =>
    match s.tasks[i]? with
    | some (.accept _ _) => !(answer.fatal && s.listener.onError.isSome)
    | some (.check _ seen) => !(unread s.log && (s.events - seen) % 2 ^ 32 = 0)
    | _ => true
  | _ => true

def DoPc.Knows (events : ℕ) : DoPc → Prop
  | .accept localVer seen | .check localVer seen => seen ≤ events ∧ localVer = BitVec.ofNat 32 seen
  | .failed _ => False
  | _ => True

structure Hearing (s : Sys) : Prop where
  version : s.listener.readableVer = BitVec.ofNat 32 s.events
  knows : ∀ pc ∈ s.tasks, pc.Knows s.events
  one : s.tasks.length + s.posting = s.listener.doing.toNat
  heard : s.listener.doing = false → unread s.log = false

theorem unread_append (log : List Event) (e : Event) : unread (log ++ [e]) =
    match e with
    | .readable => true
    | .again => false
    | _ => unread log := by
  unfold unread
  rw [List.foldl_append]
  rfl

variable {s s' : Sys}

theorem Hearing.sole (h : Hearing s) {i : ℕ} {pc : DoPc} (at_ : s.tasks[i]? = some pc) :
    i = 0 ∧ s.tasks = [pc] ∧ s.posting = 0 ∧ s.listener.doing = true := by
  have hone := h.one
  have hle := Bool.toNat_le s.listener.doing
  obtain ⟨rfl, htasks⟩ := Machine.sole_of_length_le_one (by omega) at_
  rw [htasks, List.length_singleton] at hone
  refine ⟨rfl, htasks, by omega, ?_⟩
  by_contra hidle
  rw [Bool.eq_false_iff.mpr hidle, Bool.toNat_false] at hone
  omega

theorem DoPc.Knows.mono {events events' : ℕ} (le : events ≤ events') {pc : DoPc}
    (h : pc.Knows events) : pc.Knows events' := by
  cases pc with
  | accept localVer seen | check localVer seen => exact ⟨Nat.le_trans h.1 le, h.2⟩
  | version | newConn | testStop => trivial
  | failed => exact h

theorem hearing_active (h : Hearing s) (event : BitVec 32) : Hearing (onActive s event) := by
  have hone := h.one
  have hposts {t : Sys} (version : t.listener.readableVer = BitVec.ofNat 32 t.events)
      (events : s.events ≤ t.events) (tasks : t.tasks = s.tasks) (posting : t.posting = s.posting)
      (doing : t.listener.doing = s.listener.doing) :
      Hearing (if t.listener.doing then t
        else { t with listener.doing := true, posting := t.posting + 1 }) := by
    have hknows : ∀ pc ∈ t.tasks, pc.Knows t.events :=
      fun pc hpc => (h.knows pc (tasks ▸ hpc)).mono events
    split
    · rename_i hdoing
      refine ⟨version, hknows, by rw [tasks, posting, doing]; exact hone, fun hidle => ?_⟩
      cases hdoing.symm.trans hidle
    · rename_i hdoing
      refine ⟨version, hknows, ?_, nofun⟩
      rw [← doing, Bool.eq_false_iff.mpr hdoing, Bool.toNat_false] at hone
      show t.tasks.length + (t.posting + 1) = 1
      rw [tasks, posting]
      omega
  unfold onActive
  split
  · refine hposts ?_ (Nat.le_succ _) rfl rfl rfl
    show s.listener.readableVer + 1 = BitVec.ofNat 32 (s.events + 1)
    rw [h.version, BitVec.ofNat_add]
    rfl
  · exact hposts h.version (Nat.le_refl _) rfl rfl rfl

theorem Hearing.advance (h : Hearing s) {pc pc' : DoPc} (at_ : s.tasks[0]? = some pc)
    (log : List Event) (knows : pc'.Knows s.events) :
    Hearing { s with log, tasks := s.tasks.set 0 pc' } := by
  obtain ⟨-, htasks, hposting, hdoing⟩ := h.sole at_
  refine ⟨h.version, fun q hq => ?_, ?_, fun hidle => ?_⟩
  · rw [htasks] at hq
    rw [List.mem_singleton.mp hq]
    exact knows
  · simp [htasks, hposting, hdoing]
  · cases hdoing.symm.trans hidle

theorem accept_spec (localVer : BitVec 32) (seen : ℕ) {answer : Answer}
    (hears : (answer.fatal && s.listener.onError.isSome) = false) :
    ∃ log pc, accept s localVer seen answer = ({ s with log }, pc) ∧
      (pc = .check localVer seen ∨ pc = .accept localVer seen ∨ (∃ fd, pc = .newConn fd) ∨
        pc = .testStop) := by
  cases answer with
  | conn fd => exact ⟨s.log, .newConn fd, rfl, .inr (.inr (.inl ⟨fd, rfl⟩))⟩
  | error errno =>
    unfold accept
    dsimp only
    split_ifs with hretry hagain hcallback
    · exact ⟨s.log, _, rfl, .inr (.inl rfl)⟩
    · exact ⟨s.log ++ [.again], _, rfl, .inl rfl⟩
    · obtain ⟨hproto, haborted⟩ := not_or.mp hretry
      simp [Answer.fatal, hproto, haborted, hagain, hcallback] at hears
    · exact ⟨s.log, _, rfl, .inr (.inr (.inr rfl))⟩

theorem hearing_do (h : Hearing s) {i : ℕ} {answer : Answer} (hears : hears s (.run i answer) = true)
    (stop : s.listener.stop = false) (hstep : step s (.run i answer) = some s') : Hearing s' := by
  simp only [step, Option.bind_eq_bind, Option.bind_eq_some_iff] at hstep
  obtain ⟨pc, at_, hr⟩ := hstep
  obtain ⟨rfl, htasks, hposting, hdoing⟩ := h.sole at_
  have hknows := h.knows pc (List.mem_of_getElem? at_)
  simp only [TCPListener.hears, at_] at hears
  cases pc with
  | version =>
    cases hr
    exact h.advance at_ s.log ⟨Nat.le_refl _, h.version⟩
  | accept localVer seen =>
    obtain ⟨log, pc, haccept, hpc⟩ := accept_spec localVer seen
      ((Bool.not_eq_true' _).mp hears)
    simp only [doStep, haccept] at hr
    cases hr
    refine h.advance at_ log ?_
    rcases hpc with rfl | rfl | ⟨fd, rfl⟩ | rfl
    · exact hknows
    · exact hknows
    · trivial
    · trivial
  | newConn fd =>
    cases hr
    exact h.advance at_ _ trivial
  | check localVer seen =>
    obtain ⟨hle, rfl⟩ := hknows
    by_cases hsame : BitVec.ofNat 32 seen = s.listener.readableVer
    · simp only [doStep, if_pos hsame] at hr
      cases hr
      have hread : unread s.log = false := by
        by_contra hunread
        rw [Bool.not_eq_false] at hunread
        have hmod := (Machine.version_eq_iff hle).mp (hsame.trans h.version)
        exact absurd hmod (by simpa [hunread] using hears)
      refine ⟨h.version, ?_, ?_, fun _ => hread⟩
      · simp [htasks]
      · simp [htasks, hposting]
    · simp only [doStep, if_neg hsame] at hr
      cases hr
      exact h.advance at_ s.log trivial
  | failed err => exact hknows.elim
  | testStop =>
    simp only [doStep, stop] at hr
    cases hr
    exact h.advance at_ s.log trivial

theorem do_stop {i : ℕ} {answer : Answer} (hstep : step s (.run i answer) = some s') :
    s'.listener.stop = s.listener.stop := by
  simp only [step, Option.bind_eq_bind, Option.bind_eq_some_iff] at hstep
  obtain ⟨pc, -, hr⟩ := hstep
  cases hr
  cases pc with
  | version | newConn fd => rfl
  | accept localVer seen =>
    cases answer with
    | conn fd => rfl
    | error errno =>
      simp only [doStep, accept]
      split_ifs <;> rfl
  | check localVer seen | testStop =>
    simp only [doStep]
    split <;> rfl
  | failed err =>
    simp only [doStep]
    split <;> rfl

theorem hearing_step (h : s.listener.stop = false → Hearing s) {a : Label}
    (hears : hears s a = true) (hstep : step s a = some s') :
    s'.listener.stop = false → Hearing s' := by
  intro stop
  cases a with
  | startReturns =>
    simp only [step] at hstep
    split_ifs at hstep
    cases hstep
    obtain ⟨hversion, hknows, hone, hheard⟩ := h stop
    exact ⟨hversion, hknows, hone, hheard⟩
  | onActive event =>
    cases hstep
    have hsame : (onActive s event).listener.stop = s.listener.stop := by
      unfold onActive
      split <;> dsimp only <;> split <;> rfl
    exact hearing_active (h (hsame ▸ stop)) event
  | post =>
    simp only [step] at hstep
    split_ifs at hstep with hposting
    cases hstep
    obtain ⟨hversion, hknows, hone, hheard⟩ := h stop
    refine ⟨hversion, fun pc hpc => ?_, ?_, hheard⟩
    · rcases List.mem_append.mp hpc with hold | hnew
      · exact hknows pc hold
      · rw [List.mem_singleton.mp hnew]
        trivial
    · simp only [List.length_append, List.length_singleton]
      omega
  | run i answer =>
    have hsame : s'.listener.stop = s.listener.stop := do_stop hstep
    exact hearing_do (h (hsame ▸ stop)) hears (hsame ▸ stop) hstep
  | stop =>
    simp only [step] at hstep
    split_ifs at hstep
    · cases hstep
      cases stop
    · cases hstep
      exact h stop

/-- In a started listener that is not stopped and has no task, nothing is left that `accept` has not
been asked for, and the next readable event posts. -/
theorem never_deaf {l : TCPListener} (started : l.Started) {s : Sys}
    (h : Machine.Runs step (fun s a => hears s a) (Sys.start l) s)
    (stop : s.listener.stop = false) (idle : s.tasks = []) (unposted : s.posting = 0) :
    s.listener.doing = false ∧ unread s.log = false ∧
      ∀ event : BitVec 32, event &&& ReadFlag ≠ 0 → (onActive s event).posting = 1 := by
  have hfresh : l.readableVer = 0 ∧ l.doing = false := by
    obtain ⟨onNewConn, onError, valid, socket, bind, listen, h⟩ := started
    unfold start at h
    split_ifs at h <;> cases h
    exact ⟨rfl, rfl⟩
  have inv : s.listener.stop = false → Hearing s := by
    refine h.invariant (I := fun s => s.listener.stop = false → Hearing s)
      (fun _ => ⟨hfresh.1, nofun, ?_, fun _ => rfl⟩) ?_
    · show 0 = l.doing.toNat
      rw [hfresh.2]
      rfl
    · exact fun u v a _ hu hears hstep => hearing_step hu hears hstep
  have hone := (inv stop).one
  rw [idle, unposted] at hone
  have hdoing : s.listener.doing = false := by
    cases hd : s.listener.doing
    · rfl
    · simp [hd] at hone
  refine ⟨hdoing, (inv stop).heard hdoing, fun event hevent => ?_⟩
  simp only [onActive, if_pos hevent, hdoing, unposted]
  rfl

def sample : TCPListener := ⟨5, some 1, some 2, true, false, 0, false⟩

theorem sample_started : sample.Started := ⟨some 1, some 2, true, 5, 0, 0, rfl⟩

def lateEvent : List Label :=
  [.startReturns, .onActive 1, .post, .run 0 (.conn 0), .run 0 (.error EPROTO), .run 0 (.conn 8),
    .run 0 (.conn 0), .run 0 (.conn 0), .run 0 (.conn 0), .run 0 (.error EAGAIN), .onActive 1,
    .run 0 (.conn 0), .run 0 (.conn 0), .run 0 (.conn 0), .run 0 (.conn 9), .run 0 (.conn 0),
    .run 0 (.conn 0), .run 0 (.conn 0), .run 0 (.error EAGAIN), .run 0 (.conn 0)]

theorem never_deaf_late : ∃ s : Sys,
    Machine.exec (Machine.guarded hears step) (Sys.start sample) lateEvent = some s ∧
    s.log = [.readable, .newConn (some 1) 8, .again, .readable, .newConn (some 1) 9, .again] ∧
    s.listener.doing = false ∧ unread s.log = false ∧
      ∀ event : BitVec 32, event &&& ReadFlag ≠ 0 → (onActive s event).posting = 1 := by
  have h : (Machine.exec (Machine.guarded hears step) (Sys.start sample) lateEvent).map
      (fun s => (s.log, s.listener.stop, s.tasks, s.posting)) =
      some ([.readable, .newConn (some 1) 8, .again, .readable, .newConn (some 1) 9, .again],
        false, [], 0) := by decide
  obtain ⟨s, hs, hview⟩ := Option.map_eq_some_iff.mp h
  simp only [Prod.mk.injEq] at hview
  obtain ⟨hlog, hstop, htasks, hposting⟩ := hview
  exact ⟨s, hs, hlog, never_deaf sample_started (Machine.Runs.of_exec lateEvent hs) hstop htasks
    hposting⟩

def outOfDescriptors : List Label :=
  [.startReturns, .onActive 1, .post, .run 0 (.conn 0), .run 0 (.error EMFILE), .run 0 (.conn 0)]

/-- `Do` has returned and `doing` is still set: no event posts any more. -/
theorem deaf_after_error : sample.Started ∧ ∃ s : Sys,
    Machine.exec step (Sys.start sample) outOfDescriptors = some s ∧
    Machine.Reaches step (Sys.start sample) s ∧ s.log = [.readable, .error 2 EMFILE] ∧
    s.listener.stop = false ∧ s.tasks = [] ∧ s.posting = 0 ∧ s.listener.doing = true ∧
    unread s.log = true ∧ ∀ event : BitVec 32, (onActive s event).posting = 0 := by
  have h : (Machine.exec step (Sys.start sample) outOfDescriptors).map
      (fun s => (s.log, s.listener.stop, s.tasks, s.posting, s.listener.doing)) =
      some ([.readable, .error 2 EMFILE], false, [], 0, true) := by decide
  obtain ⟨s, hs, hview⟩ := Option.map_eq_some_iff.mp h
  simp only [Prod.mk.injEq] at hview
  obtain ⟨hlog, hstop, htasks, hposting, hdoing⟩ := hview
  refine ⟨sample_started, s, hs, Machine.Reaches.of_exec _ hs, hlog, hstop, htasks, hposting,
    hdoing, by rw [hlog]; rfl, fun event => ?_⟩
  unfold onActive
  split <;> simp [hdoing, hposting]

/-! ## The version comes round -/

def Sys.noticed (s : Sys) (n : ℕ) : Sys :=
  { s with
    listener.readableVer := s.listener.readableVer + BitVec.ofNat 32 n
    events := s.events + n
    log := s.log ++ .replicate n .readable }

theorem events_run (doing : s.listener.doing = true) (n : ℕ) :
    Machine.exec step s (.replicate n (.onActive 1)) = some (s.noticed n) := by
  induction n generalizing s with
  | zero => simp [Machine.exec, Sys.noticed]
  | succ n ih =>
    have hone : step s (.onActive 1) = some (s.noticed 1) := by
      simp [step, onActive, ReadFlag, doing, Sys.noticed]
    have hver : s.listener.readableVer + BitVec.ofNat 32 1 + BitVec.ofNat 32 n =
        s.listener.readableVer + BitVec.ofNat 32 (n + 1) := by
      rw [BitVec.add_assoc, ← BitVec.ofNat_add, Nat.add_comm]
    have hevents : s.events + 1 + n = s.events + (n + 1) := by omega
    have hlog : s.log ++ .replicate 1 .readable ++ .replicate n .readable =
        s.log ++ .replicate (n + 1) .readable := by
      rw [List.append_assoc, List.replicate_append_replicate, Nat.add_comm]
    have hmore : (s.noticed 1).noticed n = s.noticed (n + 1) := by
      simp only [Sys.noticed, hver, hevents, hlog]
    have hrest := ih (s := s.noticed 1) doing
    rw [List.replicate_succ, Machine.exec, hone, Option.bind_some, hrest, hmore]

theorem unread_events {n : ℕ} (pos : 0 < n) (log : List Event) :
    unread (log ++ .replicate n .readable) = true := by
  obtain ⟨m, rfl⟩ := Nat.exists_eq_succ_of_ne_zero (Nat.ne_of_gt pos)
  rw [List.replicate_succ', ← List.append_assoc, unread_append]

def Sys.finished (s : Sys) : Sys := { s with listener.doing := false, tasks := [] }

theorem check_passes {localVer : BitVec 32} {seen : ℕ} (answer : Answer)
    (at_ : s.tasks = [.check localVer seen]) (same : localVer = s.listener.readableVer) :
    step s (.run 0 answer) = some s.finished := by
  simp [step, at_, doStep, same, Sys.finished]

def checking : Sys :=
  ⟨⟨5, some 1, some 2, true, false, 1, true⟩, true, 0, [.check 1 1], 1, [.readable, .again]⟩

theorem checking_exec : Machine.exec step (Sys.start sample)
    [.onActive 1, .post, .run 0 (.conn 0), .run 0 (.error EAGAIN)] = some checking := by
  decide

/-- Between EAGAIN and the check a multiple of 2^32 events goes unnoticed. -/
theorem unnoticed_events {n : ℕ} (pos : 0 < n) (round : n % 2 ^ 32 = 0) : ∃ s : Sys,
    Machine.Reaches step (Sys.start sample) s ∧ s.listener.stop = false ∧ s.tasks = [] ∧
    s.posting = 0 ∧ unread s.log = true := by
  have hround : (1 : BitVec 32) = (checking.noticed n).listener.readableVer := by
    have hzero : BitVec.ofNat 32 n = 0 := BitVec.eq_of_toNat_eq (by simpa using round)
    show (1 : BitVec 32) = 1 + BitVec.ofNat 32 n
    rw [hzero]
    rfl
  have hcheck := check_passes (s := checking.noticed n) (.conn 0) rfl hround
  refine ⟨(checking.noticed n).finished, ?_, rfl, rfl, rfl, unread_events pos checking.log⟩
  refine Machine.Reaches.of_exec ([.onActive 1, .post, .run 0 (.conn 0), .run 0 (.error EAGAIN)] ++
    (.replicate n (.onActive 1) ++ [.run 0 (.conn 0)])) ?_
  rw [Machine.exec_append, checking_exec, Option.bind_some, Machine.exec_append,
    events_run rfl n, Option.bind_some, Machine.exec, hcheck]
  rfl

end TCPListener

end Hwnet
