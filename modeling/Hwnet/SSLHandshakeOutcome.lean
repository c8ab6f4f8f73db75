import Hwnet.SSLHandshake

set_option autoImplicit false

/-!
# One outcome of a TLS handshake

`doing` is never set back once a `Do` has an outcome, so no other task comes. The descriptor and the
SSL object are counted: what was closed, handed over and freed, and what the task is about to.
-/
namespace Hwnet.SSLHandshake

def Event.isOk : Event → Bool
  | .ok .. => true
  | _ => false

def Event.isFailed : Event → Bool
  | .failed .. => true
  | _ => false

def Event.isClosed : Event → Bool
  | .closed _ => true
  | _ => false

def Event.isFreed : Event → Bool
  | .freed _ => true
  | _ => false

def Event.isPosted : Event → Bool
  | .posted => true
  | _ => false

def DoPc.closed : DoPc → Bool
  | .remove outcome | .report outcome => outcome.fails
  | _ => false

def DoPc.handing : DoPc → Bool
  | .remove outcome | .report outcome => !outcome.fails
  | _ => false

def DoPc.reporting : DoPc → Bool
  | .report _ => true
  | _ => false

/-- Only a failure closes, and what is handed over is the object's own. -/
def DoPc.Sane (k : SSLHandshake) : DoPc → Prop
  | .close outcome => outcome.fails = true
  | .remove outcome | .report outcome => ∀ ssl, outcome = .ok ssl → ssl = k.ssl
  | _ => True

structure Single (k : SSLHandshake) (s : Sys) : Prop where
  one : OneTask s
  fd : s.conn.fd = k.fd
  ssl : s.conn.ssl = none ∨ s.conn.ssl = k.ssl
  handed : s.conn.ssl.isNone.toNat = s.tasks.countP DoPc.handing + s.log.countP Event.isOk
  closed : s.log.countP Event.isClosed =
    s.tasks.countP DoPc.closed + s.log.countP Event.isFailed
  freed : s.log.countP Event.isFreed = (!s.alive && s.conn.ssl.isSome).toNat
  gone : s.alive = false → s.tasks = [] ∧ s.posting = 0
  sane : ∀ pc ∈ s.tasks, pc.Sane k
  registered : s.registered = true →
    s.log.countP Event.isOutcome = 0 ∧ ∀ pc ∈ s.tasks, pc.reporting = false
  own : ∀ (cb : Callback) (fd : Fd) (ssl : Option Ssl), .ok cb fd ssl ∈ s.log →
    fd = k.fd ∧ ssl = k.ssl
  ownFd : ∀ fd : Fd, .closed fd ∈ s.log → fd = k.fd

variable {k : SSLHandshake} {s s' : Sys}

theorem single_start (made : k.Made) (ok : Bool) : Single k (Sys.start k ok) := by
  obtain ⟨hssl, -, hidle, -⟩ := made_spec made
  refine ⟨?_, rfl, .inr rfl, ?_, rfl, rfl, nofun, nofun, fun _ => ⟨rfl, nofun⟩, nofun, nofun⟩
  · show 0 = k.doing.toNat
    rw [hidle]
    rfl
  · show k.ssl.isNone.toNat = 0
    cases h : k.ssl with
    | none => exact absurd h hssl
    | some ssl => rfl

/-! ## The task -/

structure Turn (k : SSLHandshake) (s t : Sys) (pc : DoPc) (next : Option DoPc) (es : List Event) :
    Prop where
  tasks : t.tasks = s.tasks
  alive : t.alive = s.alive
  posting : t.posting = s.posting
  fd : t.conn.fd = s.conn.fd
  log : t.log = s.log ++ es
  one : es.countP Event.isOutcome + next.toList.length = t.conn.doing.toNat
  ssl : t.conn.ssl = none ∨ t.conn.ssl = s.conn.ssl
  handed : t.conn.ssl.isNone.toNat + pc.handing.toNat =
    s.conn.ssl.isNone.toNat + next.toList.countP DoPc.handing + es.countP Event.isOk
  closed : es.countP Event.isClosed + pc.closed.toNat =
    next.toList.countP DoPc.closed + es.countP Event.isFailed
  freed : es.countP Event.isFreed = 0
  sane : ∀ pc' ∈ next.toList, pc'.Sane k
  registered : t.registered = true → s.registered = true ∧ es.countP Event.isOutcome = 0 ∧
    ∀ pc' ∈ next.toList, pc'.reporting = false
  own : ∀ (cb : Callback) (fd : Fd) (ssl : Option Ssl), .ok cb fd ssl ∈ es →
    fd = s.conn.fd ∧ ssl = k.ssl
  ownFd : ∀ fd : Fd, .closed fd ∈ es → fd = s.conn.fd

theorem Single.turn (h : Single k s) {pc : DoPc} {next : Option DoPc} {es : List Event}
    (at_ : s.tasks[0]? = some pc) (e : Turn k s s' pc next es) :
    Single k { s' with tasks := resume s'.tasks 0 next } := by
  obtain ⟨-, htasks, hposting, hnone, hdoing⟩ := h.one.sole at_
  have hnext : resume s'.tasks 0 next = next.toList := by
    rw [e.tasks, htasks]
    cases next <;> rfl
  rw [hnext]
  have hcount (p : Event → Bool) : s'.log.countP p = s.log.countP p + es.countP p := by
    rw [e.log, List.countP_append]
  have hone (p : DoPc → Bool) : s.tasks.countP p = (p pc).toNat := by
    rw [htasks]
    cases hp : p pc <;> simp [hp]
  have halive : s.alive = true := by
    by_contra hgone
    have hempty := (h.gone (Bool.eq_false_iff.mpr hgone)).1
    rw [hempty] at htasks
    cases htasks
  refine ⟨?_, e.fd.trans h.fd, ?_, ?_, ?_, ?_, fun hgone => ?_, e.sane, fun hin => ?_,
    fun cb fd ssl hmem => ?_, fun fd hmem => ?_⟩
  · have := e.one
    show next.toList.length + s'.posting + s'.log.countP Event.isOutcome = s'.conn.doing.toNat
    rw [hcount, e.posting, hposting, hnone]
    omega
  · rcases e.ssl with hnull | hsame
    · exact .inl hnull
    · rw [hsame]
      exact h.ssl
  · have hhanded := h.handed
    have := e.handed
    rw [hone] at hhanded
    show s'.conn.ssl.isNone.toNat = next.toList.countP DoPc.handing + s'.log.countP Event.isOk
    rw [hcount]
    omega
  · have hclosed := h.closed
    have := e.closed
    rw [hone] at hclosed
    show s'.log.countP Event.isClosed =
      next.toList.countP DoPc.closed + s'.log.countP Event.isFailed
    rw [hcount, hcount]
    omega
  · have hfreed := h.freed
    show s'.log.countP Event.isFreed = (!s'.alive && s'.conn.ssl.isSome).toNat
    rw [hcount, e.freed, e.alive, hfreed, halive]
    rfl
  · cases halive.symm.trans (e.alive.symm.trans hgone)
  · obtain ⟨hbefore, hquiet, hnext⟩ := e.registered hin
    refine ⟨?_, hnext⟩
    show s'.log.countP Event.isOutcome = 0
    rw [hcount, hquiet, (h.registered hbefore).1]
  · have hmem' : Event.ok cb fd ssl ∈ s.log ++ es := e.log ▸ hmem
    rcases List.mem_append.mp hmem' with hold | hnew
    · exact h.own cb fd ssl hold
    · obtain ⟨hfd, hssl⟩ := e.own cb fd ssl hnew
      exact ⟨hfd.trans h.fd, hssl⟩
  · have hmem' : Event.closed fd ∈ s.log ++ es := e.log ▸ hmem
    rcases List.mem_append.mp hmem' with hold | hnew
    · exact h.ownFd fd hold
    · exact (e.ownFd fd hnew).trans h.fd

def DoPc.trying : DoPc → Bool
  | .remove _ | .report _ => false
  | _ => true

theorem Turn.tries {pc pc' : DoPc} {es : List Event} (doing : s.conn.doing = true)
    (attempts : ∀ e ∈ es, e = .attempt) (trying : pc.trying = true) (trying' : pc'.trying = true)
    (sane : pc'.Sane k) : Turn k s { s with log := s.log ++ es } pc (some pc') es := by
  have hnone {p : Event → Bool} (hp : p .attempt = false) : es.countP p = 0 := by
    refine List.countP_eq_zero.mpr fun e he => ?_
    rw [attempts e he, hp]
    nofun
  have hplain {q : DoPc} (hq : q.trying = true) :
      q.handing = false ∧ q.closed = false ∧ q.reporting = false := by
    cases q with
    | remove | report => cases hq
    | test | handshake | check | close => exact ⟨rfl, rfl, rfl⟩
  obtain ⟨hhanding, hclosed, -⟩ := hplain trying
  obtain ⟨hhanding', hclosed', hreporting'⟩ := hplain trying'
  have hok : es.countP Event.isOk = 0 := hnone rfl
  have hclose : es.countP Event.isClosed = 0 := hnone rfl
  have hfail : es.countP Event.isFailed = 0 := hnone rfl
  refine ⟨rfl, rfl, rfl, rfl, rfl, ?_, .inr rfl, ?_, ?_, hnone rfl, ?_, fun hin => ?_,
    fun cb fd ssl hmem => ?_, fun fd hmem => ?_⟩
  · rw [hnone rfl, doing]
    rfl
  · simp [hok, hhanding, hhanding']
  · simp [hclose, hfail, hclosed, hclosed']
  · simpa using sane
  · exact ⟨hin, hnone rfl, by simpa using hreporting'⟩
  · cases attempts _ hmem
  · cases attempts _ hmem

theorem outcomes_eq (log : List Event) :
    log.countP Event.isOutcome = log.countP Event.isOk + log.countP Event.isFailed := by
  induction log with
  | nil => rfl
  | cons e log ih =>
    simp only [List.countP_cons, ih]
    cases e <;> simp [Event.isOutcome, Event.isOk, Event.isFailed] <;> omega

/-- Before the outcome is known the object has its SSL. -/
theorem Single.ssl_eq (h : Single k s) {pc : DoPc} (at_ : s.tasks[0]? = some pc)
    (trying : pc.trying = true) : s.conn.ssl.isNone = false ∧ s.conn.ssl = k.ssl := by
  obtain ⟨-, htasks, -, hnone, -⟩ := h.one.sole at_
  have hhanding : pc.handing = false := by
    cases pc with
    | remove | report => cases trying
    | test | handshake | check | close => rfl
  have hhanded := h.handed
  have houtcomes := outcomes_eq s.log
  have hone : s.tasks.countP DoPc.handing = 0 := by simp [htasks, hhanding]
  have hsome : s.conn.ssl.isNone = false := Bool.toNat_eq_zero.mp (by omega)
  refine ⟨hsome, h.ssl.resolve_left fun hnull => ?_⟩
  rw [hnull] at hsome
  cases hsome

theorem turn_do (h : Single k s) {pc : DoPc} {next : Option DoPc} {n : ℤ}
    (at_ : s.tasks[0]? = some pc) (hstep : doStep s n pc = some (s', next)) :
    ∃ es, Turn k s s' pc next es := by
  obtain ⟨-, htasks, -, -, hdoing⟩ := h.one.sole at_
  have hsane := h.sane pc (List.mem_of_getElem? at_)
  have hmoves {pc' : DoPc} (trying : pc.trying = true) (trying' : pc'.trying = true)
      (sane : pc'.Sane k) : ∃ es, Turn k s s pc (some pc') es := by
    have hturn : Turn k s { s with log := s.log ++ [] } pc (some pc') [] :=
      Turn.tries hdoing nofun trying trying' sane
    rw [List.append_nil] at hturn
    exact ⟨[], hturn⟩
  cases pc with
  | test =>
    simp only [doStep] at hstep
    split_ifs at hstep
    · cases hstep
      exact hmoves rfl rfl rfl
    · cases hstep
      exact ⟨[.attempt], Turn.tries hdoing (by simp) rfl rfl trivial⟩
  | handshake localVer seen =>
    cases hstep
    exact hmoves rfl rfl trivial
  | check localVer seen ret =>
    simp only [doStep] at hstep
    split_ifs at hstep
    · cases hstep
      obtain ⟨hsome, hssl⟩ := h.ssl_eq at_ rfl
      refine ⟨[], rfl, rfl, rfl, rfl, (List.append_nil _).symm, ?_, .inl rfl, ?_, rfl, rfl, ?_,
        fun hin => ⟨hin, rfl, by simp [DoPc.reporting]⟩, by simp, by simp⟩
      · exact congrArg Bool.toNat hdoing.symm
      · rw [hsome]
        rfl
      · simp [DoPc.Sane, hssl]
    · cases hstep
      exact hmoves rfl rfl trivial
    · cases hstep
      exact ⟨[], rfl, rfl, rfl, rfl, (List.append_nil _).symm, rfl, .inr rfl, rfl, rfl, rfl,
        by simp, fun hin => ⟨hin, rfl, by simp⟩, by simp, by simp⟩
    · cases hstep
      exact hmoves rfl rfl rfl
  | close outcome =>
    cases hstep
    have hfails : outcome.fails = true := hsane
    refine ⟨[.closed s.conn.fd], rfl, rfl, rfl, rfl, rfl, ?_, .inr rfl, ?_, ?_, rfl, ?_,
      fun hin => ⟨hin, rfl, by simp [DoPc.reporting]⟩, by simp, by simp⟩
    · exact congrArg Bool.toNat hdoing.symm
    · simp [DoPc.handing, hfails, Event.isOk]
    · simp [DoPc.closed, hfails, Event.isClosed, Event.isFailed]
    · cases outcome with
      | ok ssl => cases hfails
      | socketError | sslError => simp [DoPc.Sane]
  | remove outcome =>
    cases hstep
    refine ⟨[.removed s.conn.fd], rfl, rfl, rfl, rfl, rfl, ?_, .inr rfl, ?_, ?_, rfl, ?_, by simp,
      by simp, by simp⟩
    · exact congrArg Bool.toNat hdoing.symm
    · cases outcome <;> rfl
    · cases outcome <;> rfl
    · simpa [DoPc.Sane] using hsane
  | report outcome =>
    have hout : s.registered ≠ true := fun hin => by
      have hreporting := (h.registered hin).2 _ (List.mem_of_getElem? at_)
      cases hreporting
    have hdone : 1 + 0 = s.conn.doing.toNat := by
      rw [hdoing]
      rfl
    cases outcome with
    | ok ssl =>
      cases hstep
      refine ⟨[.ok s.conn.onOK s.conn.fd ssl], rfl, rfl, rfl, rfl, rfl, hdone, .inr rfl, rfl, rfl,
        rfl, by simp, fun hin => absurd hin hout, fun cb fd ssl' hmem => ?_, by simp⟩
      cases List.mem_singleton.mp hmem
      exact ⟨rfl, hsane ssl rfl⟩
    | socketError | sslError =>
      obtain ⟨cb, -, hlog⟩ := Option.map_eq_some_iff.mp hstep
      cases hlog
      exact ⟨_, rfl, rfl, rfl, rfl, rfl, hdone, .inr rfl, rfl, rfl, rfl, by simp,
        fun hin => absurd hin hout, by simp, by simp⟩

/-! ## The others -/

/-- A step that leaves the task, the descriptor and the SSL object alone. -/
theorem Single.aside (h : Single k s) {ver : BitVec 32} {doing socketError : Bool} {err : ℤ}
    {posting events : ℕ} {tasks : List DoPc} {e : Event} (alive : s.alive = true)
    (silent : e.isOutcome = false ∧ e.isClosed = false ∧ e.isFreed = false)
    (one : tasks.length + posting + s.conn.doing.toNat =
      s.tasks.length + s.posting + doing.toNat)
    (same : tasks = s.tasks ∨ tasks = s.tasks ++ [.test]) :
    Single k { s with
      conn := { s.conn with ver, doing, socketError, err }
      posting
      events
      tasks
      log := s.log ++ [e] } := by
  obtain ⟨houtcome, hclosed, hfreed⟩ := silent
  have hok : e.isOk = false ∧ e.isFailed = false := by
    cases e with
    | ok | failed => cases houtcome
    | ordinary | error | attempt | posted | closed | removed | freed => exact ⟨rfl, rfl⟩
  have hcount {p : Event → Bool} (hp : p e = false) :
      (s.log ++ [e]).countP p = s.log.countP p := by
    simp [List.countP_append, hp]
  have htasks {p : DoPc → Bool} (hp : p .test = false) : tasks.countP p = s.tasks.countP p := by
    rcases same with rfl | rfl
    · rfl
    · simp [List.countP_append, hp]
  have hmem {pc : DoPc} (hpc : pc ∈ tasks) : pc ∈ s.tasks ∨ pc = .test := by
    rcases same with rfl | rfl
    · exact .inl hpc
    · simpa using hpc
  refine ⟨?_, h.fd, h.ssl, ?_, ?_, ?_, fun hgone => ?_, fun pc hpc => ?_, fun hin => ?_,
    fun cb fd ssl hold => ?_, fun fd hold => ?_⟩
  · have hone := h.one
    unfold OneTask at hone ⊢
    show tasks.length + posting + (s.log ++ [e]).countP Event.isOutcome = doing.toNat
    rw [hcount houtcome]
    omega
  · exact h.handed.trans (congrArg₂ (· + ·) (htasks rfl).symm (hcount hok.1).symm)
  · exact (hcount hclosed).trans
      (h.closed.trans (congrArg₂ (· + ·) (htasks rfl).symm (hcount hok.2).symm))
  · exact (hcount hfreed).trans h.freed
  · cases alive.symm.trans hgone
  · rcases hmem hpc with hold | rfl
    · exact h.sane pc hold
    · trivial
  · obtain ⟨hquiet, hunreported⟩ := h.registered hin
    refine ⟨(hcount houtcome).trans hquiet, fun pc hpc => ?_⟩
    rcases hmem hpc with hold | rfl
    · exact hunreported pc hold
    · rfl
  · rcases List.mem_append.mp hold with hold | hnew
    · exact h.own cb fd ssl hold
    · cases List.mem_singleton.mp hnew
      cases houtcome
  · rcases List.mem_append.mp hold with hold | hnew
    · exact h.ownFd fd hold
    · cases List.mem_singleton.mp hnew
      cases hclosed

theorem single_active (h : Single k s) (alive : s.alive = true) (event : BitVec 32) (err : ℤ) :
    Single k (onActive s event err) := by
  have hone (doing : s.conn.doing = false) :
      s.tasks.length + (s.posting + 1) + s.conn.doing.toNat =
        s.tasks.length + s.posting + true.toNat := by
    rw [doing]
    rfl
  unfold onActive
  rcases note_cases s event err with hnote | hnote
  all_goals
    rw [hnote]
    dsimp only
    split
    · exact h.aside alive ⟨rfl, rfl, rfl⟩ rfl (.inl rfl)
    · rename_i hidle
      exact h.aside alive ⟨rfl, rfl, rfl⟩ (hone (Bool.eq_false_iff.mpr hidle)) (.inl rfl)

theorem single_step (h : Single k s) {a : Label} (hstep : step s a = some s') : Single k s' := by
  cases a with
  | onActive event err =>
    obtain ⟨halive, rfl⟩ := onActive_eq hstep
    exact single_active h halive event err
  | post =>
    obtain ⟨hposting, rfl⟩ := post_eq hstep
    have halive : s.alive = true := by
      by_contra hgone
      have hnone := (h.gone (Bool.eq_false_iff.mpr hgone)).2
      omega
    refine h.aside halive ⟨rfl, rfl, rfl⟩ ?_ (.inr rfl)
    show (s.tasks ++ [DoPc.test]).length + (s.posting - 1) + s.conn.doing.toNat =
      s.tasks.length + s.posting + s.conn.doing.toNat
    rw [List.length_append, List.length_singleton]
    omega
  | run i n =>
    simp only [step, Option.bind_eq_bind, Option.bind_eq_some_iff] at hstep
    obtain ⟨pc, at_, ⟨t, next⟩, hdo, hr⟩ := hstep
    obtain ⟨rfl, -⟩ := h.one.sole at_
    obtain ⟨es, e⟩ := turn_do h at_ hdo
    cases hr
    exact h.turn at_ e
  | destroy =>
    obtain ⟨⟨halive, hout, hposting, htasks⟩, rfl⟩ := destroy_eq hstep
    have hfreed := h.freed
    rw [halive, Bool.not_true, Bool.false_and] at hfreed
    refine ⟨?_, h.fd, h.ssl, ?_, ?_, ?_, fun _ => ⟨htasks, hposting⟩, h.sane,
      fun hin => absurd hin hout, fun cb fd ssl hmem => ?_, fun fd hmem => ?_⟩
    · have hone := h.one
      unfold OneTask at hone ⊢
      rw [countP_destroy s fun _ => rfl]
      exact hone
    · rw [countP_destroy s fun _ => rfl]
      exact h.handed
    · rw [countP_destroy s fun _ => rfl, countP_destroy s fun _ => rfl]
      exact h.closed
    · show (s.log ++ s.conn.ssl.toList.map Event.freed).countP Event.isFreed =
        (!false && s.conn.ssl.isSome).toNat
      rw [List.countP_append, hfreed]
      cases s.conn.ssl <;> rfl
    · refine h.own cb fd ssl ?_
      simpa [destroy] using hmem
    · refine h.ownFd fd ?_
      simpa [destroy] using hmem

theorem single_reachable (made : k.Made) {ok : Bool} (h : Reachable (Sys.start k ok) s) :
    Single k s :=
  h.invariant (single_start made ok) fun _ _ _ _ hu _ hstep => single_step hu hstep

/-! ## The outcome -/

/-- Where there is an outcome nothing posts. -/
theorem settled_step (one : OneTask s) (settled : s.log.countP Event.isOutcome = 1) {a : Label}
    (hstep : step s a = some s') : s'.log.countP Event.isOutcome = 1 ∧
      s'.log.countP Event.isPosted = s.log.countP Event.isPosted := by
  have hle := Bool.toNat_le s.conn.doing
  unfold OneTask at one
  have hdoing : s.conn.doing = true := by
    by_contra hidle
    rw [Bool.eq_false_iff.mpr hidle, Bool.toNat_false] at one
    omega
  cases a with
  | onActive event err =>
    obtain ⟨-, rfl⟩ := onActive_eq hstep
    unfold onActive
    rcases note_cases s event err with hnote | hnote
    all_goals
      rw [hnote]
      dsimp only
      rw [if_pos hdoing]
      exact ⟨(countP_push _ rfl).trans settled, countP_push _ rfl⟩
  | post =>
    have hposting := (post_eq hstep).1
    omega
  | run i n =>
    have hnone : s.tasks = [] := List.length_eq_zero_iff.mp (by omega)
    simp [step, hnone] at hstep
  | destroy =>
    obtain ⟨-, rfl⟩ := destroy_eq hstep
    exact ⟨(countP_destroy s fun _ => rfl).trans settled, countP_destroy s fun _ => rfl⟩

theorem settled_runs (made : k.Made) {ok : Bool} (reachable : Reachable (Sys.start k ok) s)
    (settled : s.log.countP Event.isOutcome = 1) (run : Machine.Reaches step s s') :
    s'.log.countP Event.isPosted = s.log.countP Event.isPosted := by
  suffices s'.log.countP Event.isOutcome = 1 ∧
      s'.log.countP Event.isPosted = s.log.countP Event.isPosted from this.2
  refine run.invariant (I := fun u => u.log.countP Event.isOutcome = 1 ∧
      u.log.countP Event.isPosted = s.log.countP Event.isPosted) ⟨settled, rfl⟩
    fun u v a hrun hu _ hstep => ?_
  have hone := (single_reachable made (reachable.trans hrun)).one
  obtain ⟨houtcome, hposted⟩ := settled_step hone hu.1 hstep
  exact ⟨houtcome, hposted.trans hu.2⟩

def secondAttempt : List Label :=
  [.onActive 1 0, .post, .run 0 0, .run 0 (-1), .onActive 1 0, .run 0 SSL_ERROR_WANT_READ,
    .run 0 0, .run 0 1, .run 0 0, .onActive 0x18 104, .run 0 0, .run 0 0, .onActive 1 0, .destroy]

end Hwnet.SSLHandshake
