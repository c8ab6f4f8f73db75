import Hwnet.Poller

set_option autoImplicit false

/-!
# A channel is alive when the poller calls it

epoll hands out raw pointers. What keeps a channel of a batch alive is the map while it is
registered and `waitRemove` from then on; that list is cleared by the thread that has handled the
batch, and with the mutex, so no removal is under way.
-/
namespace Hwnet.Poller

variable {fds : Channel → Fd}

def CallPc.inSection : CallPc → Bool
  | .addCtl _ | .addInsert _ | .removePush _ | .removeErase _ | .removeCtl _ | .removeCount _ => true
  | _ => false

def RunPc.inSection : RunPc → Bool
  | .store _ | .clear _ => true
  | _ => false

/-- The pointers of the batch that are still to be used. -/
def RunPc.batch : RunPc → List Channel
  | .dispatch _ batch | .drain _ batch => batch
  | .active _ c batch => c :: batch
  | _ => []

def CallPc.channel : CallPc → Option Channel
  | .add c | .addCtl c | .addInsert c | .remove c | .removePush c | .removeErase c | .removeCtl c
  | .removeCount c | .removeNotify c => some c
  | .stop | .stopNotify | .done => none

def CallPc.Knows (fds : Channel → Fd) (r : Registry) : CallPc → Prop
  | .addCtl c => r.channels (fds c) = none
  | .addInsert c => r.channels (fds c) = none ∧ r.interest (fds c) = some c
  | .removePush c => r.channels (fds c) = some c
  | .removeErase c => r.channels (fds c) = some c ∧ c ∈ r.waitRemove
  | .removeCtl c => r.channels (fds c) = none ∧ c ∈ r.waitRemove
  | _ => True

def Owned (fds : Channel → Fd) (s : Sys) (c : Channel) : Prop :=
  s.reg.channels (fds c) = some c ∨ c ∈ s.reg.waitRemove ∨ .addInsert c ∈ s.calls

structure Safe (fds : Channel → Fd) (s : Sys) : Prop where
  mutex : ∀ (i : ℕ) (pc : CallPc), s.calls[i]? = some pc → pc.inSection = true →
    s.mtx = some (.call i)
  runner : s.run.inSection = true → s.mtx = some .run
  knows : ∀ pc ∈ s.calls, pc.Knows fds s.reg
  keyed : ∀ (fd : Fd) (c : Channel), s.reg.channels fd = some c → fds c = fd
  registered : ∀ (fd : Fd) (c : Channel), s.reg.interest fd = some c →
    fds c = fd ∧ (s.reg.channels fd = some c ∨ .addInsert c ∈ s.calls ∨ .removeCtl c ∈ s.calls)
  alive : ∀ c ∈ s.run.batch, Owned fds s c

theorem update_some {f : Fd → Option Channel} {a b : Fd} {c d : Channel}
    (h : Function.update f a (some d) b = some c) : b = a ∧ d = c ∨ f b = some c := by
  by_cases hb : b = a
  · subst hb
    rw [Function.update_self] at h
    exact .inl ⟨rfl, Option.some.inj h⟩
  · rw [Function.update_of_ne hb] at h
    exact .inr h

theorem update_none {f : Fd → Option Channel} {a b : Fd} {c : Channel}
    (h : Function.update f a none b = some c) : b ≠ a ∧ f b = some c := by
  by_cases hb : b = a
  · subst hb
    rw [Function.update_self] at h
    cases h
  · rw [Function.update_of_ne hb] at h
    exact ⟨hb, h⟩

theorem CallPc.knows_outside {r : Registry} {pc : CallPc} (h : pc.inSection = false) :
    pc.Knows fds r := by
  cases pc <;> first | exact trivial | cases h

/-- The only call that can be inside its section is the one that holds the mutex. -/
theorem Safe.sole {s : Sys} (h : Safe fds s) {i j : ℕ} {q : CallPc}
    (free : s.mtx = none ∨ s.mtx = some (.call i)) (hq : s.calls[j]? = some q)
    (inside : q.inSection = true) : j = i := by
  have := h.mutex j q hq inside
  rcases free with hfree | hfree <;> rw [hfree] at this
  · cases this
  · cases this
    rfl

/-- A call has moved with the mutex in its hand before or after: all others are outside. -/
theorem Safe.locked {s s' : Sys} (h : Safe fds s) {i : ℕ} {pc pc' : CallPc}
    (at_ : s.calls[i]? = some pc) (free : s.mtx = none ∨ s.mtx = some (.call i))
    (mtx : s'.mtx = if pc'.inSection then some (.call i) else none) (run : s'.run = s.run)
    (calls : s'.calls = s.calls.set i pc') (knows : pc'.Knows fds s'.reg)
    (keyed : ∀ (fd : Fd) (c : Channel), s'.reg.channels fd = some c → fds c = fd)
    (registered : ∀ (fd : Fd) (c : Channel), s'.reg.interest fd = some c → fds c = fd ∧
      (s'.reg.channels fd = some c ∨ pc' = .addInsert c ∨ pc' = .removeCtl c))
    (alive : ∀ c, s.reg.channels (fds c) = some c ∨ c ∈ s.reg.waitRemove ∨ pc = .addInsert c →
      s'.reg.channels (fds c) = some c ∨ c ∈ s'.reg.waitRemove ∨ pc' = .addInsert c) :
    Safe fds s' := by
  have hlen := (List.getElem?_eq_some_iff.mp at_).1
  have hself : pc' ∈ s.calls.set i pc' := List.mem_of_getElem? (List.getElem?_set_self hlen)
  have houtside {j : ℕ} {q : CallPc} (hj : j ≠ i) (hq : s.calls[j]? = some q) :
      q.inSection = false := by
    by_contra hin
    exact hj (h.sole free hq (Bool.not_eq_false _ ▸ hin))
  refine ⟨fun j q hq hin => ?_, fun hin => ?_, fun q hq => ?_, keyed, fun fd c hc => ?_,
    fun c hc => ?_⟩
  · rw [calls] at hq
    rw [mtx]
    rcases Machine.of_getElem?_set hq with ⟨rfl, rfl⟩ | ⟨hj, hq⟩
    · exact if_pos hin
    · rw [houtside hj hq] at hin
      cases hin
  · have := h.runner (run ▸ hin)
    rcases free with hfree | hfree <;> cases hfree.symm.trans this
  · rw [calls] at hq
    obtain ⟨j, hj⟩ := List.mem_iff_getElem?.mp hq
    rcases Machine.of_getElem?_set hj with ⟨rfl, rfl⟩ | ⟨hne, hj⟩
    · exact knows
    · exact CallPc.knows_outside (houtside hne hj)
  · obtain ⟨hfd, hkept⟩ := registered fd c hc
    refine ⟨hfd, hkept.imp_right ?_⟩
    rw [calls]
    rintro (rfl | rfl)
    · exact .inl hself
    · exact .inr hself
  · have hold : s.reg.channels (fds c) = some c ∨ c ∈ s.reg.waitRemove ∨ pc = .addInsert c := by
      refine (h.alive c (run ▸ hc)).imp_right (Or.imp_right fun hmem => ?_)
      obtain ⟨j, hj⟩ := List.mem_iff_getElem?.mp hmem
      by_cases hji : j = i
      · subst hji
        exact Option.some.inj (at_.symm.trans hj)
      · cases houtside hji hj
    refine (alive c hold).imp_right (Or.imp_right ?_)
    rintro rfl
    rw [calls]
    exact hself

/-- A call outside its section has moved and the registry and the mutex are as they were. -/
theorem Safe.aside {s s' : Sys} (h : Safe fds s) {i : ℕ} {pc pc' : CallPc}
    (at_ : s.calls[i]? = some pc) (outside : pc.inSection = false)
    (outside' : pc'.inSection = false) (reg : s'.reg = s.reg) (mtx : s'.mtx = s.mtx)
    (run : s'.run = s.run) (calls : s'.calls = s.calls.set i pc') : Safe fds s' := by
  have hkept {q : CallPc} (hq : q ∈ s.calls) (hin : q.inSection = true) :
      q ∈ s.calls.set i pc' := by
    obtain ⟨j, hj⟩ := List.mem_iff_getElem?.mp hq
    have hji : i ≠ j := by
      rintro rfl
      rw [Option.some.inj (hj.symm.trans at_), outside] at hin
      cases hin
    exact List.mem_of_getElem? ((List.getElem?_set_ne hji).trans hj)
  refine ⟨fun j q hq hin => ?_, fun hin => ?_, fun q hq => ?_, ?_, fun fd c hc => ?_,
    fun c hc => ?_⟩
  · rw [calls] at hq
    rw [mtx]
    rcases Machine.of_getElem?_set hq with ⟨rfl, rfl⟩ | ⟨-, hq⟩
    · rw [outside'] at hin
      cases hin
    · exact h.mutex j q hq hin
  · rw [run] at hin
    rw [mtx]
    exact h.runner hin
  · rw [calls] at hq
    rw [reg]
    rcases List.mem_or_eq_of_mem_set hq with hq | rfl
    · exact h.knows q hq
    · exact CallPc.knows_outside outside'
  · rw [reg]
    exact h.keyed
  · rw [reg] at hc ⊢
    rw [calls]
    obtain ⟨hfd, hon⟩ := h.registered fd c hc
    exact ⟨hfd, hon.imp_right (Or.imp (hkept · rfl) (hkept · rfl))⟩
  · rw [run] at hc
    unfold Owned
    rw [reg, calls]
    exact (h.alive c hc).imp_right (Or.imp_right (hkept · rfl))

/-- A registered pointer, as the call with the mutex sees it. -/
theorem Safe.registered_sole {s : Sys} (h : Safe fds s) {i : ℕ} {pc : CallPc}
    (at_ : s.calls[i]? = some pc) (free : s.mtx = none ∨ s.mtx = some (.call i)) {fd : Fd}
    {c : Channel} (hc : s.reg.interest fd = some c) : fds c = fd ∧
      (s.reg.channels fd = some c ∨ pc = .addInsert c ∨ pc = .removeCtl c) := by
  have hpc {q : CallPc} (hq : q ∈ s.calls) (inside : q.inSection = true) : pc = q := by
    obtain ⟨j, hj⟩ := List.mem_iff_getElem?.mp hq
    obtain rfl := h.sole free hj inside
    exact Option.some.inj (at_.symm.trans hj)
  exact (h.registered fd c hc).imp_right (Or.imp_right (Or.imp (hpc · rfl) (hpc · rfl)))

theorem Safe.addCtl {s : Sys} (h : Safe fds s) {i : ℕ} {c : Channel}
    (at_ : s.calls[i]? = some (.addCtl c)) {ok : Bool} {reg : Registry} {ret : ℤ}
    (hctl : s.reg.ctlAdd c (fds c) ok = (reg, ret)) :
    (ret = 0 → Safe fds { s with reg, calls := s.calls.set i (.addInsert c) }) ∧
      (ret ≠ 0 → Safe fds { s with reg, mtx := none, calls := s.calls.set i .done }) := by
  have hnone := h.knows _ (List.mem_of_getElem? at_)
  have hheld := h.mutex i _ at_ rfl
  rcases ctlAdd_spec hctl with ⟨hret, -, rfl⟩ | ⟨hret, rfl⟩
  · refine ⟨fun _ => ?_, fun hno => absurd hret hno⟩
    refine h.locked at_ (.inr hheld) (hheld.trans (if_pos rfl).symm) rfl rfl
      ⟨hnone, Function.update_self ..⟩ h.keyed (fun fd d hd => ?_) fun d hd => ?_
    · rcases update_some hd with ⟨rfl, rfl⟩ | hd
      · exact ⟨rfl, .inr (.inl rfl)⟩
      · obtain ⟨hnum, hthere⟩ := h.registered_sole at_ (.inr hheld) hd
        exact ⟨hnum, .inl (by simpa using hthere)⟩
    · exact hd.imp_right (Or.imp_right CallPc.noConfusion)
  · refine ⟨fun hyes => absurd hyes hret, fun _ => ?_⟩
    refine h.locked at_ (.inr hheld) rfl rfl rfl trivial h.keyed (fun fd d hd => ?_) fun d hd => ?_
    · simpa using h.registered_sole at_ (.inr hheld) hd
    · simpa using hd

/-- The channel gets into the map, where its number was free. -/
theorem Safe.addInsert {s : Sys} (h : Safe fds s) {i : ℕ} {c : Channel}
    (at_ : s.calls[i]? = some (.addInsert c)) :
    Safe fds
      { s with reg := s.reg.insert c (fds c), mtx := none, calls := s.calls.set i .done } := by
  have hnone := (h.knows _ (List.mem_of_getElem? at_)).1
  have hheld := h.mutex i _ at_ rfl
  have hself : Function.update s.reg.channels (fds c) (some c) (fds c) = some c :=
    Function.update_self ..
  have hold {d : Channel} (hd : s.reg.channels (fds d) = some d) :
      Function.update s.reg.channels (fds c) (some c) (fds d) = some d := by
    have hne : fds d ≠ fds c := by
      intro hsame
      rw [hsame, hnone] at hd
      cases hd
    rw [Function.update_of_ne hne]
    exact hd
  refine h.locked at_ (.inr hheld) rfl rfl rfl trivial (fun fd d hd => ?_) (fun fd d hd => ?_)
    fun d hd => ?_
  · rcases update_some hd with ⟨rfl, rfl⟩ | hd
    · rfl
    · exact h.keyed fd d hd
  · obtain ⟨rfl, hthere | heq | hne⟩ := h.registered_sole at_ (.inr hheld) hd
    · exact ⟨rfl, .inl (hold hthere)⟩
    · cases heq
      exact ⟨rfl, .inl hself⟩
    · cases hne
  · rcases hd with hthere | hwait | heq
    · exact .inl (hold hthere)
    · exact .inr (.inl hwait)
    · cases heq
      exact .inl hself

/-- The channel leaves the map; it is in `waitRemove` already, and epoll still has it. -/
theorem Safe.removeErase {s : Sys} (h : Safe fds s) {i : ℕ} {c : Channel}
    (at_ : s.calls[i]? = some (.removeErase c)) :
    Safe fds { s with reg := s.reg.erase (fds c), calls := s.calls.set i (.removeCtl c) } := by
  obtain ⟨hthere, hwaits⟩ := h.knows _ (List.mem_of_getElem? at_)
  have hheld := h.mutex i _ at_ rfl
  have hold {d : Channel} (hd : s.reg.channels (fds d) = some d) :
      d = c ∨ Function.update s.reg.channels (fds c) none (fds d) = some d := by
    by_cases hsame : fds d = fds c
    · rw [hsame, hthere] at hd
      exact .inl (Option.some.inj hd).symm
    · exact .inr ((Function.update_of_ne hsame ..).trans hd)
  refine h.locked at_ (.inr hheld) (hheld.trans (if_pos rfl).symm) rfl rfl
    ⟨Function.update_self .., hwaits⟩ (fun fd d hd => h.keyed fd d (update_none hd).2)
    (fun fd d hd => ?_) fun d hd => ?_
  · obtain ⟨rfl, hmapped | hne | hne⟩ := h.registered_sole at_ (.inr hheld) hd
    · rcases hold hmapped with rfl | hkept
      · exact ⟨rfl, .inr (.inr rfl)⟩
      · exact ⟨rfl, .inl hkept⟩
    · cases hne
    · cases hne
  · rcases hd with hmapped | hwait | hne
    · rcases hold hmapped with rfl | hkept
      · exact .inr (.inl hwaits)
      · exact .inl hkept
    · exact .inr (.inl hwait)
    · cases hne

/-- After `EPOLL_CTL_DEL` what epoll has is in the map again. -/
theorem Safe.removeCtl {s : Sys} (h : Safe fds s) {i : ℕ} {c : Channel}
    (at_ : s.calls[i]? = some (.removeCtl c)) :
    Safe fds { s with reg := s.reg.ctlDel (fds c), calls := s.calls.set i (.removeCount c) } := by
  have hheld := h.mutex i _ at_ rfl
  refine h.locked at_ (.inr hheld) (hheld.trans (if_pos rfl).symm) rfl rfl trivial h.keyed
    (fun fd d hd => ?_) fun d hd => ?_
  · obtain ⟨hfd, hd⟩ := update_none hd
    obtain ⟨rfl, hthere | hne | heq⟩ := h.registered_sole at_ (.inr hheld) hd
    · exact ⟨rfl, .inl hthere⟩
    · cases hne
    · cases heq
      exact absurd rfl hfd
  · exact hd.imp_right (Or.imp_right CallPc.noConfusion)

theorem safe_call {s s' : Sys} (h : Safe fds s) {i : ℕ} {ok : Bool} {pc pc' : CallPc}
    (at_ : s.calls[i]? = some pc) (hstep : callStep fds s i ok pc = some (s', pc'))
    (own : ∀ c, pc = .remove c →
      s.reg.channels (fds c) = none ∨ s.reg.channels (fds c) = some c) :
    Safe fds { s' with calls := s'.calls.set i pc' } := by
  have hknows := h.knows pc (List.mem_of_getElem? at_)
  have hheld (inside : pc.inSection = true) := h.mutex i pc at_ inside
  have hon (free : s.mtx = none ∨ s.mtx = some (.call i)) {fd : Fd} {c : Channel}
      (hc : s.reg.interest fd = some c) := h.registered_sole at_ free hc
  cases pc with
  | add c =>
    simp only [callStep] at hstep
    split_ifs at hstep with hfree hthere
    · cases hstep
      exact h.aside at_ rfl rfl rfl rfl rfl rfl
    · cases hstep
      refine h.locked at_ (.inl hfree) rfl rfl rfl ?_ h.keyed (fun fd d hd => ?_) fun d hd => ?_
      · exact Option.not_isSome_iff_eq_none.mp hthere
      · simpa using hon (.inl hfree) hd
      · simpa using hd
  | addCtl c =>
    simp only [callStep] at hstep
    cases hctl : s.reg.ctlAdd c (fds c) ok with
    | mk reg ret =>
      obtain ⟨hadded, hrefused⟩ := h.addCtl at_ hctl
      rw [hctl] at hstep
      dsimp only at hstep
      split_ifs at hstep with hret
      · cases hstep
        exact hadded hret
      · cases hstep
        exact hrefused hret
  | addInsert c =>
    cases hstep
    exact h.addInsert at_
  | remove c =>
    simp only [callStep] at hstep
    split_ifs at hstep with hfree hnone
    · cases hstep
      exact h.aside at_ rfl rfl rfl rfl rfl rfl
    · cases hstep
      refine h.locked at_ (.inl hfree) rfl rfl rfl ?_ h.keyed (fun fd d hd => ?_) fun d hd => ?_
      · exact (own c rfl).resolve_left fun hno => hnone (Option.isNone_iff_eq_none.mpr hno)
      · simpa using hon (.inl hfree) hd
      · simpa using hd
  | removePush c =>
    have hheld := hheld rfl
    cases hstep
    refine h.locked at_ (.inr hheld) (hheld.trans (if_pos rfl).symm) rfl rfl
      ⟨hknows, List.mem_append_right _ (List.mem_singleton_self c)⟩ h.keyed (fun fd d hd => ?_)
      fun d hd => ?_
    · simpa [Registry.push] using hon (.inr hheld) hd
    · exact hd.imp_right (Or.imp (List.mem_append_left _) CallPc.noConfusion)
  | removeErase c =>
    cases hstep
    exact h.removeErase at_
  | removeCtl c =>
    cases hstep
    exact h.removeCtl at_
  | removeCount c =>
    have hheld := hheld rfl
    cases hstep
    refine h.locked at_ (.inr hheld) ?_ rfl rfl ?_ h.keyed (fun fd d hd => ?_) fun d hd => ?_
    · split <;> rfl
    · split <;> trivial
    · obtain ⟨hnum, hthere⟩ := hon (.inr hheld) hd
      exact ⟨hnum, .inl (by simpa [Registry.count] using hthere)⟩
    · exact hd.imp_right (Or.imp_right CallPc.noConfusion)
  | removeNotify c | stopNotify =>
    simp only [callStep, Option.map_eq_some_iff] at hstep
    obtain ⟨t, hnotify, hr⟩ := hstep
    cases hr
    obtain ⟨pipe, rfl, -⟩ := notify_spec hnotify
    exact h.aside at_ rfl rfl rfl rfl rfl rfl
  | stop =>
    cases hstep
    exact h.aside at_ rfl rfl rfl rfl rfl rfl
  | done => cases hstep

/-- The Run thread has moved and the registry and the mutex are as they were. -/
theorem Safe.moved {s s' : Sys} (h : Safe fds s) (reg : s'.reg = s.reg) (mtx : s'.mtx = s.mtx)
    (calls : s'.calls = s.calls) (outside : s'.run.inSection = false)
    (alive : ∀ c ∈ s'.run.batch, Owned fds s c) : Safe fds s' := by
  refine ⟨?_, fun hin => ?_, ?_, ?_, ?_, fun c hc => ?_⟩
  · rw [calls, mtx]
    exact h.mutex
  · rw [outside] at hin
    cases hin
  · rw [calls, reg]
    exact h.knows
  · rw [reg]
    exact h.keyed
  · rw [reg, calls]
    exact h.registered
  · unfold Owned
    rw [reg, calls]
    exact alive c hc

theorem Safe.between {s s' : Sys} (h : Safe fds s) (reg : s'.reg = s.reg) (mtx : s'.mtx = s.mtx)
    (calls : s'.calls = s.calls) (run : s'.run.inSection = false ∧ s'.run.batch = []) :
    Safe fds s' :=
  h.moved reg mtx calls run.1 (by rw [run.2]; exact nofun)

theorem safe_run {s s' : Sys} (h : Safe fds s) {ok : Bool} (hstep : runStep s ok s.run = some s') :
    Safe fds s' := by
  have halive := h.alive
  have hrunner := h.runner
  generalize hrun : s.run = pc at hstep halive hrunner
  -- with the mutex in the hands of the Run thread no call is inside its section
  have houtside (free : s.mtx = none ∨ s.mtx = some .run) (q : CallPc) (hq : q ∈ s.calls) :
      q.inSection = false := by
    by_contra hin
    obtain ⟨j, hj⟩ := List.mem_iff_getElem?.mp hq
    have := h.mutex j q hj (Bool.not_eq_false _ ▸ hin)
    rcases free with hfree | hfree <;> cases hfree.symm.trans this
  have hno {c : Channel} (free : s.mtx = none ∨ s.mtx = some .run) :
      ¬ (.addInsert c ∈ s.calls ∨ .removeCtl c ∈ s.calls) := by
    rintro (hmem | hmem) <;> cases houtside free _ hmem
  cases pc with
  | idle | wait => cases hstep
  | test =>
    cases hstep
    refine h.between rfl rfl rfl ?_
    dsimp only
    split <;> exact ⟨rfl, rfl⟩
  | dispatch nfds batch =>
    cases batch with
    | nil =>
      simp only [runStep] at hstep
      split_ifs at hstep <;> (cases hstep; exact h.between rfl rfl rfl ⟨rfl, rfl⟩)
    | cons c batch =>
      cases hstep
      refine h.moved rfl rfl rfl ?_ fun d hd => ?_
      · dsimp only
        split <;> rfl
      · dsimp only at hd
        split at hd
        · exact halive d (List.mem_cons_of_mem c hd)
        · exact halive d hd
  | active nfds c batch =>
    cases hstep
    exact h.moved rfl rfl rfl rfl fun d hd => halive d (List.mem_cons_of_mem c hd)
  | drain nfds batch =>
    simp only [runStep] at hstep
    split_ifs at hstep
    · cases hstep
      exact h.moved rfl rfl rfl (by rw [hrun]; rfl) fun d hd =>
        halive d (by rw [hrun] at hd; exact hd)
    · cases hstep
      exact h.moved rfl rfl rfl rfl halive
  | load ret =>
    cases hstep
    refine h.between rfl rfl rfl ?_
    dsimp only
    split <;> exact ⟨rfl, rfl⟩
  | lock ret =>
    simp only [runStep] at hstep
    split_ifs at hstep with hfree
    cases hstep
    refine ⟨fun j q hq hin => ?_, fun _ => rfl, h.knows, h.keyed, h.registered, nofun⟩
    rw [houtside (.inl hfree) q (List.mem_of_getElem? hq)] at hin
    cases hin
  | store ret =>
    have hheld := hrunner rfl
    cases hstep
    refine ⟨h.mutex, fun _ => hheld, fun q hq => ?_, h.keyed, h.registered, nofun⟩
    exact CallPc.knows_outside (houtside (.inr hheld) q hq)
  | clear ret =>
    have hheld := hrunner rfl
    cases hstep
    refine ⟨fun j q hq hin => ?_, nofun, fun q hq => ?_, h.keyed, h.registered, nofun⟩
    · rw [houtside (.inr hheld) q (List.mem_of_getElem? hq)] at hin
      cases hin
    · exact CallPc.knows_outside (houtside (.inr hheld) q hq)
  | check ret =>
    cases hstep
    refine h.between rfl rfl rfl ?_
    dsimp only
    split <;> exact ⟨rfl, rfl⟩

/-- What epoll reports is registered, so it is owned. -/
theorem Safe.polled {s : Sys} (h : Safe fds s) (events : List Fd) :
    ∀ c ∈ events.filterMap s.reg.interest, Owned fds s c := by
  intro c hc
  obtain ⟨fd, -, hfd⟩ := List.mem_filterMap.mp hc
  obtain ⟨rfl, hthere | hadd | hremove⟩ := h.registered fd c hfd
  · exact .inl hthere
  · exact .inr (.inr hadd)
  · exact .inr (.inl (h.knows _ hremove).2)

/-- A channel given to Remove is the one registered under its number, if any is: the channels in
use have distinct descriptors. -/
def distinct (fds : Channel → Fd) (s : Sys) : Label → Bool
  | .advance i _ =>
    match s.calls[i]? with
    | some (.remove c) => s.reg.channels (fds c) = none || s.reg.channels (fds c) = some c
    | _ => true
  | _ => true

theorem safe_step {s s' : Sys} (h : Safe fds s) {a : Label} (own : distinct fds s a = true)
    (hstep : step fds s a = some s') : Safe fds s' := by
  cases a with
  | call c =>
    obtain rfl := Option.some.inj hstep
    have hentry : c.entry.inSection = false := by cases c <;> rfl
    have hold {q : CallPc} (hq : q ∈ s.calls) : q ∈ s.calls ++ [c.entry] :=
      List.mem_append_left _ hq
    refine ⟨fun j q hq hin => ?_, h.runner, fun q hq => ?_, h.keyed, fun fd d hd => ?_,
      fun d hd => ?_⟩
    · rcases Nat.lt_or_ge j s.calls.length with hlt | hge
      · rw [List.getElem?_append_left hlt] at hq
        exact h.mutex j q hq hin
      · rw [List.getElem?_append_right hge] at hq
        obtain rfl := List.mem_singleton.mp (List.mem_of_getElem? hq)
        rw [hentry] at hin
        cases hin
    · rcases List.mem_append.mp hq with hq | hq
      · exact h.knows q hq
      · rw [List.mem_singleton.mp hq]
        exact CallPc.knows_outside hentry
    · exact (h.registered fd d hd).imp_right (Or.imp_right (Or.imp hold hold))
    · exact (h.alive d hd).imp_right (Or.imp_right hold)
  | advance i ok =>
    simp only [step, Option.bind_eq_bind, Option.bind_eq_some_iff] at hstep
    obtain ⟨pc, at_, ⟨t, pc'⟩, hcall, hr⟩ := hstep
    cases hr
    refine safe_call h at_ hcall ?_
    rintro c rfl
    simpa [distinct, at_] using own
  | start =>
    simp only [step] at hstep
    split_ifs at hstep
    cases hstep
    exact h.between rfl rfl rfl ⟨rfl, rfl⟩
  | poll events =>
    simp only [step] at hstep
    split_ifs at hstep
    cases hstep
    exact h.moved rfl rfl rfl rfl (h.polled events)
  | pollFailed =>
    simp only [step] at hstep
    split_ifs at hstep
    cases hstep
    exact h.between rfl rfl rfl ⟨rfl, rfl⟩
  | runner ok => exact safe_run h hstep

theorem safe_init (fds : Channel → Fd) (ok : Bool) : Safe fds (Sys.init fds ok) := by
  have hreg : (Sys.init fds ok).reg = Registry.empty ∨ (Sys.init fds ok).reg =
      { Registry.empty with
        interest := Function.update Registry.empty.interest (fds notifyChannel) (some notifyChannel)
        channels :=
          Function.update Registry.empty.channels (fds notifyChannel) (some notifyChannel) } := by
    cases ok
    · exact .inl rfl
    · exact .inr rfl
  have hone {fd : Fd} {c : Channel}
      (h : Function.update (fun _ => none) (fds notifyChannel) (some notifyChannel) fd = some c) :
      fds c = fd := by
    rcases update_some h with ⟨rfl, rfl⟩ | hno
    · rfl
    · cases hno
  refine ⟨nofun, nofun, nofun, fun fd c hc => ?_, fun fd c hc => ?_, nofun⟩
  · rcases hreg with hreg | hreg <;> rw [hreg] at hc
    · cases hc
    · exact hone hc
  · rcases hreg with hreg | hreg <;> rw [hreg] at hc ⊢
    · cases hc
    · exact ⟨hone hc, .inl hc⟩

/-- Each channel of the batch that the Run thread is calling or has yet to call is owned by the map,
by `waitRemove` or by a call in progress. -/
theorem channel_alive {fds : Channel → Fd} {ok : Bool} {s : Sys}
    (h : Machine.Runs (step fds) (fun s a => distinct fds s a) (Sys.init fds ok) s) {c : Channel}
    (called : c ∈ s.run.batch) :
    (∃ fd, s.reg.channels fd = some c) ∨ c ∈ s.reg.waitRemove ∨
      ∃ pc ∈ s.calls, pc.channel = some c := by
  have inv : Safe fds s :=
    h.invariant (safe_init fds ok) fun _ _ _ _ hu own hstep => safe_step hu own hstep
  rcases inv.alive c called with hthere | hwait | hadd
  · exact .inl ⟨fds c, hthere⟩
  · exact .inr (.inl hwait)
  · exact .inr (.inr ⟨_, hadd, rfl⟩)

def removedRun : List Label :=
  [.call (.add 1), .advance 0 true, .advance 0 true, .advance 0 true, .call (.add 2),
    .advance 1 true, .advance 1 true, .advance 1 true, .start, .runner true, .poll [1, 2],
    .runner true, .call (.remove 2), .advance 2 true, .advance 2 true, .advance 2 true,
    .advance 2 true, .advance 2 true, .advance 2 true, .runner true]

theorem channel_alive_removed : ∃ s : Sys,
    Machine.exec (Machine.guarded (distinct Int.ofNat) (step Int.ofNat)) (Sys.init Int.ofNat true)
      removedRun = some s ∧
    s.run = .dispatch 2 [2] ∧ s.calls[2]? = some .done ∧ s.reg.channels 2 = none ∧
    ((∃ fd, s.reg.channels fd = some 2) ∨ 2 ∈ s.reg.waitRemove ∨
      ∃ pc ∈ s.calls, pc.channel = some 2) := by
  have h : (Machine.exec (Machine.guarded (distinct Int.ofNat) (step Int.ofNat))
      (Sys.init Int.ofNat true) removedRun).map
      (fun s => (s.run, s.calls[2]?, s.reg.channels 2)) =
      some (.dispatch 2 [2], some .done, none) := by decide
  obtain ⟨s, hs, hview⟩ := Option.map_eq_some_iff.mp h
  simp only [Prod.mk.injEq] at hview
  refine ⟨s, hs, hview.1, hview.2.1, hview.2.2, ?_⟩
  refine channel_alive (Machine.Runs.of_exec removedRun hs) ?_
  rw [hview.1]
  exact List.mem_singleton_self 2

def lateRun : List Label :=
  [.call (.add 1), .advance 0 true, .advance 0 true, .advance 0 true, .call (.remove 1),
    .advance 1 true, .advance 1 true, .advance 1 true, .advance 1 true, .advance 1 true,
    .advance 1 true, .call (.add 2), .advance 2 true, .advance 2 true, .advance 2 true, .start,
    .runner true, .poll [5], .call (.remove 1), .advance 3 true, .advance 3 true, .advance 3 true,
    .advance 3 true, .advance 3 true, .runner true]

/-- The channel is called and nothing owns it. -/
theorem channel_lost : ∃ (fds : Channel → Fd) (s : Sys),
    Machine.exec (step fds) (Sys.init fds true) lateRun = some s ∧
    Reachable fds true s ∧ s.run = .active 1 2 [] ∧ s.calls = List.replicate 4 .done ∧
    (∀ fd, s.reg.channels fd ≠ some 2) ∧ 2 ∉ s.reg.waitRemove := by
  have h : (Machine.exec (step fun c => if c = 0 then 0 else 5)
      (Sys.init (fun c => if c = 0 then 0 else 5) true) lateRun).map
      (fun s => (s.run, s.calls, s.reg.channels, s.reg.waitRemove)) =
      some (.active 1 2 [], List.replicate 4 .done,
        (((((Registry.empty.insert 0 0).insert 1 5).erase 5).insert 2 5).erase 5).channels,
        [1, 1]) := rfl
  obtain ⟨s, hs, hview⟩ := Option.map_eq_some_iff.mp h
  simp only [Prod.mk.injEq] at hview
  obtain ⟨hrun, hcalls, hchannels, hwait⟩ := hview
  refine ⟨_, s, hs, Machine.Reaches.of_exec lateRun hs, hrun, hcalls, fun fd => ?_, ?_⟩
  · rw [hchannels]
    by_cases hfive : fd = 5
    · simp [hfive, Registry.erase]
    · by_cases hzero : fd = 0 <;>
        simp [Registry.erase, Registry.insert, Registry.empty, hfive, hzero]
  · rw [hwait]
    decide

end Hwnet.Poller
