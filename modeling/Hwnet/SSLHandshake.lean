import Mathlib.Algebra.GroupWithZero.Nat
import Mathlib.Data.Int.Notation
import Hwnet.Machine

set_option autoImplicit false

/-!
# The TLS handshake

A `Do` tries the handshake without the mutex, and looks at the version again before it goes idle.
Each section with the mutex is one step, and so is each call outside of it. What OpenSSL answers is
in the label.
-/
namespace Hwnet

namespace SSLHandshake

abbrev Callback := ℕ
abbrev Fd := ℤ

abbrev Ssl := ℕ

def ErrorFlag : BitVec 32 := 0x2018

def SSL_ERROR_WANT_READ : ℤ := 2
def SSL_ERROR_WANT_WRITE : ℤ := 3

def ssl_again (ssl_error : ℤ) : Bool :=
  ssl_error = SSL_ERROR_WANT_WRITE || ssl_error = SSL_ERROR_WANT_READ

end SSLHandshake

structure SSLHandshake where
  fd : SSLHandshake.Fd
  ssl : Option SSLHandshake.Ssl
  onOK : SSLHandshake.Callback
  onError : Option SSLHandshake.Callback
  ver : BitVec 32
  doing : Bool
  socketError : Bool
  err : ℤ
  deriving DecidableEq, Repr

namespace SSLHandshake

/-- `New` up to Add, where it does not fail; `ssl` is what SSL_new returns and `set` whether
SSL_set_fd succeeds. -/
def new (poller ctx : Bool) (fd : Fd) (onOK onError : Option Callback) (ssl : Option Ssl)
    (set : Bool) : Option SSLHandshake := do
  if !poller || !ctx then none
  let onOK ← onOK
  let ssl ← ssl
  if !set then none
  return ⟨fd, some ssl, onOK, onError, 0, false, false, 0⟩

/-- How a `Do` that does not go idle ends. The error of a handshake is asked for again when it is
reported. -/
inductive Outcome where
  | ok (ssl : Option Ssl)
  | socketError
  | sslError
  deriving DecidableEq, Repr

def Outcome.fails : Outcome → Bool
  | .ok _ => false
  | .socketError | .sslError => true

/-- Where a `Do` stands. `seen` is the number of ordinary events there had been when it read the
version; the code does not have it. -/
inductive DoPc where
  | test
  | handshake (localVer : BitVec 32) (seen : ℕ)
  | check (localVer : BitVec 32) (seen : ℕ) (ret : ℤ)
  | close (outcome : Outcome)
  | remove (outcome : Outcome)
  | report (outcome : Outcome)
  deriving DecidableEq, Repr

inductive Event where
  | ordinary
  | error
  | attempt
  | posted
  | closed (fd : Fd)
  | removed (fd : Fd)
  | ok (cb : Callback) (fd : Fd) (ssl : Option Ssl)
  | failed (cb : Callback) (code : ℤ)
  | freed (ssl : Ssl)
  deriving DecidableEq, Repr

/-- `alive` is whether the object exists, `registered` whether the poller has it, `posting` the
number of threads that hold `post = true` and have not reached PostTask, `events` the number of
ordinary events so far. -/
structure Sys where
  conn : SSLHandshake
  alive : Bool
  registered : Bool
  posting : ℕ
  tasks : List DoPc
  events : ℕ
  log : List Event
  deriving DecidableEq, Repr

/-- After Add; `ok` is whether it succeeded, which `New` does not check. -/
def Sys.start (k : SSLHandshake) (ok : Bool) : Sys := ⟨k, true, ok, 0, [], 0, []⟩

/-- `err` is what `getsockopt` stores, or the errno it leaves; `n` is what the call into OpenSSL
returns, where the step makes one. -/
inductive Label where
  | onActive (event : BitVec 32) (err : ℤ)
  | post
  | run (i : ℕ) (n : ℤ)
  | destroy
  deriving DecidableEq, Repr

def note (s : Sys) (event : BitVec 32) (err : ℤ) : Sys :=
  if event &&& ErrorFlag ≠ 0 then
    { s with conn.err := err, conn.socketError := true, log := s.log ++ [.error] }
  else
    { s with conn.ver := s.conn.ver + 1, events := s.events + 1, log := s.log ++ [.ordinary] }

def onActive (s : Sys) (event : BitVec 32) (err : ℤ) : Sys :=
  let s := note s event err
  if s.conn.doing then s else { s with conn.doing := true, posting := s.posting + 1 }

/-- `none` as the next place is the end of `Do`. An empty `onError_` cannot be called. -/
def doStep (s : Sys) (n : ℤ) : DoPc → Option (Sys × Option DoPc)
  | .test =>
    if s.conn.socketError then some (s, some (.close .socketError))
    else some ({ s with log := s.log ++ [.attempt] }, some (.handshake s.conn.ver s.events))
  | .handshake localVer seen => some (s, some (.check localVer seen n))
  | .check localVer _ ret =>
    if 0 < ret then some ({ s with conn.ssl := none }, some (.remove (.ok s.conn.ssl)))
    else if ssl_again n then
      if localVer ≠ s.conn.ver then some (s, some .test)
      else some ({ s with conn.doing := false }, none)
    else some (s, some (.close .sslError))
  | .close outcome => some ({ s with log := s.log ++ [.closed s.conn.fd] }, some (.remove outcome))
  | .remove outcome =>
    some ({ s with registered := false, log := s.log ++ [.removed s.conn.fd] },
      some (.report outcome))
  | .report (.ok ssl) => some ({ s with log := s.log ++ [.ok s.conn.onOK s.conn.fd ssl] }, none)
  | .report .socketError =>
    s.conn.onError.map fun cb => ({ s with log := s.log ++ [.failed cb s.conn.err] }, none)
  | .report .sslError =>
    s.conn.onError.map fun cb => ({ s with log := s.log ++ [.failed cb n] }, none)

def resume (tasks : List DoPc) (i : ℕ) : Option DoPc → List DoPc
  | some pc => tasks.set i pc
  | none => tasks.eraseIdx i

def destroy (s : Sys) : Sys :=
  { s with
    alive := false
    log := s.log ++ s.conn.ssl.toList.map Event.freed }

def step (s : Sys) : Label → Option Sys
  | .onActive event err => if s.alive then some (onActive s event err) else none
  | .post =>
    if 0 < s.posting then
      some { s with
        posting := s.posting - 1
        tasks := s.tasks ++ [.test]
        log := s.log ++ [.posted] }
    else none
  | .run i n => do
    let pc ← s.tasks[i]?
    let (s, next) ← doStep s n pc
    return { s with tasks := resume s.tasks i next }
  | .destroy =>
    if s.alive ∧ ¬ s.registered ∧ s.posting = 0 ∧ s.tasks = [] then some (destroy s) else none

abbrev Reachable (start : Sys) : Sys → Prop := Machine.Reaches step start

/-! ## One task -/

def Event.isOutcome : Event → Bool
  | .ok .. | .failed .. => true
  | _ => false

variable {s s' : Sys}

def OneTask (s : Sys) : Prop :=
  s.tasks.length + s.posting + s.log.countP Event.isOutcome = s.conn.doing.toNat

theorem OneTask.sole (h : OneTask s) {i : ℕ} {pc : DoPc} (at_ : s.tasks[i]? = some pc) :
    i = 0 ∧ s.tasks = [pc] ∧ s.posting = 0 ∧ s.log.countP Event.isOutcome = 0 ∧
      s.conn.doing = true := by
  have hle := Bool.toNat_le s.conn.doing
  unfold OneTask at h
  obtain ⟨rfl, htasks⟩ := Machine.sole_of_length_le_one (by omega) at_
  rw [htasks, List.length_singleton] at h
  refine ⟨rfl, htasks, by omega, by omega, ?_⟩
  by_contra hidle
  rw [Bool.eq_false_iff.mpr hidle, Bool.toNat_false] at h
  omega

theorem note_cases (s : Sys) (event : BitVec 32) (err : ℤ) :
    note s event err = { s with
      conn.err := err, conn.socketError := true, log := s.log ++ [.error] } ∨
    note s event err = { s with
      conn.ver := s.conn.ver + 1, events := s.events + 1, log := s.log ++ [.ordinary] } := by
  unfold note
  by_cases herror : event &&& ErrorFlag ≠ 0
  · rw [if_pos herror]
    exact .inl rfl
  · rw [if_neg herror]
    exact .inr rfl

theorem onActive_eq {event : BitVec 32} {err : ℤ} (hstep : step s (.onActive event err) = some s') :
    s.alive = true ∧ s' = onActive s event err := by
  simp only [step] at hstep
  split_ifs at hstep with halive
  exact ⟨halive, (Option.some.inj hstep).symm⟩

theorem post_eq (hstep : step s .post = some s') : 0 < s.posting ∧
    s' = { s with
      posting := s.posting - 1
      tasks := s.tasks ++ [.test]
      log := s.log ++ [.posted] } := by
  simp only [step] at hstep
  split_ifs at hstep with hposting
  exact ⟨hposting, (Option.some.inj hstep).symm⟩

theorem destroy_eq (hstep : step s .destroy = some s') :
    (s.alive = true ∧ ¬ s.registered ∧ s.posting = 0 ∧ s.tasks = []) ∧ s' = destroy s := by
  simp only [step] at hstep
  split_ifs at hstep with hfree
  exact ⟨hfree, (Option.some.inj hstep).symm⟩

theorem countP_push (log : List Event) {p : Event → Bool} {e : Event} (unlike : p e = false) :
    (log ++ [e]).countP p = log.countP p := by
  simp [List.countP_append, unlike]

theorem countP_destroy (s : Sys) {p : Event → Bool} (unlike : ∀ ssl, p (.freed ssl) = false) :
    (destroy s).log.countP p = s.log.countP p := by
  rw [destroy, List.countP_append]
  cases s.conn.ssl <;> simp [unlike]

/-! ## Events that are missed -/

def unheard (log : List Event) : Bool :=
  log.foldl (fun arrived e =>
    match e with
    | .ordinary | .error => true
    | .attempt => false
    | _ => arrived) false

def Attentive (s : Sys) : Prop :=
  s.conn.doing = false → s.conn.socketError = false ∧ unheard s.log = false

/-- A `Do` goes idle although an event has arrived during the attempt: an error, or a multiple of
2^32 ordinary events. -/
def deafens (s : Sys) : Label → Bool
  | .run i n =>
    match s.tasks[i]? with
    | some (.check _ seen ret) =>
      ret ≤ 0 && ssl_again n && unheard s.log && (s.events - seen) % 2 ^ 32 = 0
    | _ => false
  | _ => false

def DoPc.Knows (s : Sys) : DoPc → Prop
  | .handshake localVer seen | .check localVer seen _ =>
    seen ≤ s.events ∧ localVer = BitVec.ofNat 32 seen ∧
      (unheard s.log = false → s.conn.socketError = false)
  | _ => True

structure Hearing (s : Sys) : Prop where
  one : OneTask s
  version : s.conn.ver = BitVec.ofNat 32 s.events
  knows : ∀ pc ∈ s.tasks, pc.Knows s
  heard : Attentive s

theorem unheard_append (log : List Event) (e : Event) : unheard (log ++ [e]) =
    match e with
    | .ordinary | .error => true
    | .attempt => false
    | _ => unheard log := by
  unfold unheard
  rw [List.foldl_append]
  rfl

theorem hearing_active (h : Hearing s) (event : BitVec 32) (err : ℤ) :
    Hearing (onActive s event err) := by
  have hone := h.one
  unfold OneTask at hone
  have hposts {t : Sys} (version : t.conn.ver = BitVec.ofNat 32 t.events)
      (events : s.events ≤ t.events) (tasks : t.tasks = s.tasks) (posting : t.posting = s.posting)
      (doing : t.conn.doing = s.conn.doing) (arrived : unheard t.log = true)
      (outcomes : t.log.countP Event.isOutcome = s.log.countP Event.isOutcome) :
      Hearing (if t.conn.doing then t
        else { t with conn.doing := true, posting := t.posting + 1 }) := by
    have hknows {u : Sys} (hevents : u.events = t.events) (hlog : u.log = t.log) :
        ∀ pc ∈ t.tasks, pc.Knows u := by
      intro pc hpc
      have hbefore := h.knows pc (tasks ▸ hpc)
      cases pc with
      | handshake localVer seen | check localVer seen ret =>
        refine ⟨hevents ▸ Nat.le_trans hbefore.1 events, hbefore.2.1, fun hnone => ?_⟩
        rw [hlog, arrived] at hnone
        cases hnone
      | test | close | remove | report => trivial
    split
    · rename_i hdoing
      refine ⟨?_, version, hknows rfl rfl, fun hidle => ?_⟩
      · rw [OneTask, tasks, posting, outcomes, doing]
        exact hone
      · cases hdoing.symm.trans hidle
    · rename_i hdoing
      refine ⟨?_, version, hknows rfl rfl, nofun⟩
      rw [← doing, Bool.eq_false_iff.mpr hdoing, Bool.toNat_false] at hone
      show t.tasks.length + (t.posting + 1) + t.log.countP Event.isOutcome = 1
      rw [tasks, posting, outcomes]
      omega
  unfold onActive
  rcases note_cases s event err with hnote | hnote
  · rw [hnote]
    exact hposts h.version (Nat.le_refl _) rfl rfl rfl (unheard_append _ _) (countP_push _ rfl)
  · rw [hnote]
    refine hposts ?_ (Nat.le_succ _) rfl rfl rfl (unheard_append _ _) (countP_push _ rfl)
    show s.conn.ver + 1 = BitVec.ofNat 32 (s.events + 1)
    rw [h.version, BitVec.ofNat_add]
    rfl

theorem Hearing.advance (h : Hearing s) {pc pc' : DoPc} (at_ : s.tasks[0]? = some pc)
    (ssl : Option Ssl) (registered : Bool) {log : List Event}
    (outcomes : log.countP Event.isOutcome = s.log.countP Event.isOutcome)
    (knows : pc'.Knows { s with log }) :
    Hearing { s with conn.ssl := ssl, registered, log, tasks := s.tasks.set 0 pc' } := by
  obtain ⟨-, htasks, hposting, -, hdoing⟩ := h.one.sole at_
  have hone := h.one
  refine ⟨?_, h.version, fun q hq => ?_, fun hidle => ?_⟩
  · unfold OneTask at hone ⊢
    rw [← hone, outcomes, List.length_set]
  · rw [htasks] at hq
    rw [List.mem_singleton.mp hq]
    cases pc' <;> exact knows
  · cases hdoing.symm.trans hidle

theorem Hearing.ends (h : Hearing s) {pc : DoPc} (at_ : s.tasks[0]? = some pc) {e : Event}
    (outcome : e.isOutcome = true) :
    Hearing { s with log := s.log ++ [e], tasks := s.tasks.eraseIdx 0 } := by
  obtain ⟨-, htasks, hposting, hnone, hdoing⟩ := h.one.sole at_
  refine ⟨?_, h.version, ?_, fun hidle => ?_⟩
  · simp [OneTask, htasks, hposting, hnone, outcome, hdoing]
  · simp [htasks]
  · cases hdoing.symm.trans hidle

theorem hearing_do (h : Hearing s) {i : ℕ} {n : ℤ} (hears : deafens s (.run i n) = false)
    (hstep : step s (.run i n) = some s') : Hearing s' := by
  simp only [step, Option.bind_eq_bind, Option.bind_eq_some_iff] at hstep
  obtain ⟨pc, at_, ⟨t, next⟩, hdo, hr⟩ := hstep
  obtain ⟨rfl, htasks, hposting, hnone, hdoing⟩ := h.one.sole at_
  have hknows := h.knows pc (List.mem_of_getElem? at_)
  simp only [deafens, at_] at hears
  cases pc with
  | test =>
    simp only [doStep] at hdo
    by_cases herror : s.conn.socketError = true
    · rw [if_pos herror] at hdo
      cases hdo
      cases hr
      exact h.advance at_ s.conn.ssl s.registered rfl trivial
    · rw [if_neg herror] at hdo
      cases hdo
      cases hr
      exact h.advance at_ s.conn.ssl s.registered (countP_push _ rfl)
        ⟨Nat.le_refl _, h.version, fun _ => Bool.eq_false_iff.mpr herror⟩
  | handshake localVer seen =>
    cases hdo
    cases hr
    exact h.advance at_ s.conn.ssl s.registered rfl hknows
  | check localVer seen ret =>
    obtain ⟨hle, rfl, hquiet⟩ := hknows
    simp only [doStep] at hdo
    by_cases hok : 0 < ret
    · rw [if_pos hok] at hdo
      cases hdo
      cases hr
      exact h.advance at_ none s.registered rfl trivial
    rw [if_neg hok] at hdo
    by_cases hagain : ssl_again n = true
    · rw [if_pos hagain] at hdo
      by_cases hsame : BitVec.ofNat 32 seen = s.conn.ver
      · rw [if_neg (not_not_intro hsame)] at hdo
        cases hdo
        cases hr
        have hmod := (Machine.version_eq_iff hle).mp (hsame.trans h.version)
        have hheard : unheard s.log = false := by
          by_contra harrived
          rw [Bool.not_eq_false] at harrived
          exact absurd hmod (by simpa [Int.not_lt.mp hok, hagain, harrived] using hears)
        refine ⟨?_, h.version, ?_, fun _ => ⟨hquiet hheard, hheard⟩⟩
        · simp [OneTask, resume, htasks, hposting, hnone]
        · simp [resume, htasks]
      · rw [if_pos hsame] at hdo
        cases hdo
        cases hr
        exact h.advance at_ s.conn.ssl s.registered rfl trivial
    · rw [if_neg hagain] at hdo
      cases hdo
      cases hr
      exact h.advance at_ s.conn.ssl s.registered rfl trivial
  | close outcome =>
    cases hdo
    cases hr
    exact h.advance at_ s.conn.ssl s.registered (countP_push _ rfl) trivial
  | remove outcome =>
    cases hdo
    cases hr
    exact h.advance at_ s.conn.ssl false (countP_push _ rfl) trivial
  | report outcome =>
    cases outcome with
    | ok ssl =>
      cases hdo
      cases hr
      exact h.ends at_ rfl
    | socketError | sslError =>
      obtain ⟨cb, -, hlog⟩ := Option.map_eq_some_iff.mp hdo
      cases hlog
      cases hr
      exact h.ends at_ rfl

theorem hearing_step (h : Hearing s) {a : Label} (hears : deafens s a = false)
    (hstep : step s a = some s') : Hearing s' := by
  cases a with
  | onActive event err =>
    obtain ⟨-, rfl⟩ := onActive_eq hstep
    exact hearing_active h event err
  | post =>
    obtain ⟨hposting, rfl⟩ := post_eq hstep
    have hone := h.one
    unfold OneTask at hone
    have hle := Bool.toNat_le s.conn.doing
    have hnone : s.tasks = [] := List.length_eq_zero_iff.mp (by omega)
    refine ⟨?_, h.version, ?_, fun hidle => ?_⟩
    · simp only [OneTask, List.length_append, List.length_singleton, List.countP_append]
      rw [← hone, hnone]
      simp [Event.isOutcome]
      omega
    · simp [hnone, DoPc.Knows]
    · rw [show s.conn.doing = false from hidle, Bool.toNat_false] at hone
      omega
  | run i n => exact hearing_do h hears hstep
  | destroy =>
    obtain ⟨⟨-, -, -, htasks⟩, rfl⟩ := destroy_eq hstep
    have hlog : unheard (destroy s).log = unheard s.log := by
      rw [destroy]
      cases s.conn.ssl with
      | none => simp
      | some ssl => exact unheard_append s.log (.freed ssl)
    refine ⟨?_, h.version, ?_, fun hidle => ?_⟩
    · rw [OneTask, countP_destroy s fun _ => rfl]
      exact h.one
    · rw [show (destroy s).tasks = s.tasks from rfl, htasks]
      nofun
    · rw [hlog]
      exact h.heard hidle

/-- A step that deafens is no good. -/
theorem not_attentive (h : Hearing s) {a : Label} (hears : deafens s a = true)
    (hstep : step s a = some s') : ¬ Attentive s' := by
  cases a with
  | run i n =>
    simp only [deafens] at hears
    split at hears
    · rename_i localVer seen ret at_
      simp only [Bool.and_eq_true, decide_eq_true_eq] at hears
      obtain ⟨⟨⟨hret, hagain⟩, harrived⟩, hmod⟩ := hears
      obtain ⟨hle, rfl, -⟩ := h.knows _ (List.mem_of_getElem? at_)
      have hsame : BitVec.ofNat 32 seen = s.conn.ver :=
        ((Machine.version_eq_iff hle).mpr hmod).trans h.version.symm
      simp only [step, at_, doStep, if_neg (Int.not_lt.mpr hret), if_pos hagain,
        if_neg (not_not_intro hsame), Option.bind_eq_bind, Option.bind_some] at hstep
      cases hstep
      intro hattentive
      rw [(hattentive rfl).2] at harrived
      cases harrived
    · cases hears
  | onActive event err | post | destroy => cases hears

def Made (k : SSLHandshake) : Prop :=
  ∃ (poller ctx : Bool) (fd : Fd) (onOK onError : Option Callback) (ssl : Option Ssl) (set : Bool),
    new poller ctx fd onOK onError ssl set = some k

theorem made_spec {k : SSLHandshake} (h : k.Made) :
    k.ssl ≠ none ∧ k.ver = 0 ∧ k.doing = false ∧ k.socketError = false := by
  obtain ⟨poller, ctx, fd, onOK, onError, ssl, set, h⟩ := h
  cases poller <;> cases ctx <;> cases onOK <;> cases ssl <;> cases set <;> simp [new] at h
  subst h
  simp

theorem hearing_start {k : SSLHandshake} (h : k.Made) (ok : Bool) : Hearing (Sys.start k ok) := by
  obtain ⟨-, hver, hidle, hquiet⟩ := made_spec h
  refine ⟨?_, hver, nofun, fun _ => ⟨hquiet, rfl⟩⟩
  show 0 = k.doing.toNat
  rw [hidle]
  rfl

/-- In a run of any calls of `OnActive` and any answers of OpenSSL, `doing` is false only where no
event is missed if and only if no step of the run deafens the handshake. -/
theorem misses_nothing_iff {k : SSLHandshake} (made : k.Made) (ok : Bool) (labels : List Label)
    (run : Machine.exec step (Sys.start k ok) labels = some s) :
    (∀ before after u, labels = before ++ after →
      Machine.exec step (Sys.start k ok) before = some u → Attentive u) ↔
    Machine.tally step deafens (Sys.start k ok) labels = 0 :=
  Machine.always_iff (fun _ h => h.heard) (fun _ _ _ h hears hstep => hearing_step h hears hstep)
    (fun _ _ _ h hears hstep => not_attentive h hears hstep) (hearing_start made ok) labels run

def sample : SSLHandshake := ⟨5, some 9, 1, some 2, 0, false, false, 0⟩

theorem sample_made : sample.Made := ⟨true, true, 5, some 1, some 2, some 9, true, rfl⟩

def errorDuring : List Label :=
  [.onActive 1 0, .post, .run 0 0, .run 0 (-1), .onActive 0x18 104, .run 0 SSL_ERROR_WANT_READ]

theorem error_missed : sample.Made ∧ ∃ s : Sys,
    Machine.exec step (Sys.start sample true) errorDuring = some s ∧ s.tasks = [] ∧
    s.posting = 0 ∧ s.conn.doing = false ∧ s.conn.socketError = true ∧ ¬ Attentive s := by
  have h : (Machine.exec step (Sys.start sample true) errorDuring).map
      (fun s => (s.tasks, s.posting, s.conn.doing, s.conn.socketError)) =
      some ([], 0, false, true) := by decide
  obtain ⟨s, hs, hview⟩ := Option.map_eq_some_iff.mp h
  simp only [Prod.mk.injEq] at hview
  obtain ⟨htasks, hposting, hidle, herror⟩ := hview
  refine ⟨sample_made, s, hs, htasks, hposting, hidle, herror, fun hattentive => ?_⟩
  rw [(hattentive hidle).1] at herror
  cases herror

def moreDuring : List Label :=
  [.onActive 1 0, .post, .run 0 0, .run 0 (-1), .onActive 1 0, .run 0 SSL_ERROR_WANT_READ,
    .run 0 0, .run 0 (-1), .run 0 SSL_ERROR_WANT_READ]

theorem more_heard : ∃ s : Sys, Machine.exec step (Sys.start sample true) moreDuring = some s ∧
    s.conn.doing = false ∧ Attentive s := by
  have h : (Machine.exec step (Sys.start sample true) moreDuring).map (fun s => s.conn.doing) =
      some false := by decide
  obtain ⟨s, hs, hidle⟩ := Option.map_eq_some_iff.mp h
  exact ⟨s, hs, hidle, (misses_nothing_iff sample_made true moreDuring hs).mpr (by decide)
    moreDuring [] s (List.append_nil _).symm hs⟩

end SSLHandshake

end Hwnet
