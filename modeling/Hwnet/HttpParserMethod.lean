import Hwnet.HttpParserReads
import Hwnet.SlicesScan

set_option autoImplicit false

/-!
# Methods

The letters of a method are matched against one method at a time, which another one takes the place
of where they differ. What is accepted is the table.
-/
namespace Hwnet.Http.HttpParser

open Slices (Control Scans)

variable {k : HttpParser} {ch : UInt8}

theorem step_header (h : k.state.parsingHeader = true) (room : k.nread < HTTP_MAX_HEADER_SIZE)
    (ch : UInt8) (n : ℕ) :
    k.step ch n = { k with nread := k.nread + 1 }.switch ch n := by
  have hmod : (k.nread + 1) % 2 ^ 32 = k.nread + 1 := by
    unfold HTTP_MAX_HEADER_SIZE at room
    omega
  simp only [step, h, if_true, hmod]
  exact if_neg (by omega)

def methodStep (p : HttpMethod × ℕ) (ch : UInt8) : Option (HttpMethod × ℕ) :=
  if ch = NUL then none
  else if p.1.string[p.2]? = some ch then some (p.1, p.2 + 1)
  else (otherMethod p.1 p.2 ch).map (·, p.2 + 1)

theorem string_letters (m : HttpMethod) : SP ∉ m.string ∧ NUL ∉ m.string := by
  cases m <;> decide

theorem otherMethod_take {m m' : HttpMethod} {index : ℕ}
    (h : otherMethod m index ch = some m') :
    m.string.take index ++ [ch] = m'.string.take (index + 1) := by
  revert h
  fun_cases otherMethod m index ch <;> intro h <;> cases h
  all_goals
    simp_all only [and_true, true_and]
    rfl

theorem otherMethod_space (m : HttpMethod) (index : ℕ) : otherMethod m index SP = none := by
  unfold otherMethod
  repeat' split
  all_goals first | rfl | simp_all [SP]

theorem methodStep_take {p p' : HttpMethod × ℕ} (h : methodStep p ch = some p') :
    p.1.string.take p.2 ++ [ch] = p'.1.string.take p'.2 ∧ p'.2 = p.2 + 1 ∧
      p'.2 ≤ p'.1.string.length := by
  unfold methodStep at h
  split at h
  · cases h
  · split at h
    · next hget =>
      obtain rfl := Option.some.inj h
      obtain ⟨hlt, hch⟩ := List.getElem?_eq_some_iff.mp hget
      exact ⟨by rw [List.take_succ_eq_append_getElem hlt, hch], rfl, hlt⟩
    · obtain ⟨m, hother, rfl⟩ := Option.map_eq_some_iff.mp h
      exact ⟨otherMethod_take hother, rfl, otherMethod_length hother⟩

theorem step_reqMethod (hk : k.state = .reqMethod) (room : k.nread < HTTP_MAX_HEADER_SIZE)
    (hindex : k.index ≤ k.method.string.length) (hch : ch ≠ SP) :
    match methodStep (k.method, k.index) ch with
    | some p => k.step ch 1 =
        ⟨{ k with nread := k.nread + 1, method := p.1, index := p.2 }, [], .next⟩
    | none => (k.step ch 1).control ≠ .next := by
  have hmod : (k.index + 1) % 256 = k.index + 1 := by
    have := string_length k.method
    omega
  have hget : k.index < (k.method.string ++ [NUL]).length := by
    rw [List.length_append, List.length_singleton]
    omega
  rw [step_header (by rw [hk]; rfl) room]
  simp only [switch, hk, reqMethod, methodStep]
  by_cases hnul : ch = NUL
  · simp [hnul, fails]
  · rw [if_neg hnul, if_neg hnul, List.getElem?_eq_getElem hget]
    have hsame : k.method.string[k.index]? = some ch ↔
        ch = (k.method.string ++ [NUL])[k.index] := by
      rcases Nat.lt_or_eq_of_le hindex with hlt | heq
      · rw [List.getElem_append_left hlt, List.getElem?_eq_getElem hlt, Option.some.injEq]
        exact ⟨Eq.symm, Eq.symm⟩
      · rw [List.getElem?_eq_none (by omega)]
        simp [heq, hnul]
    simp only [hch, false_and, if_false, hmod]
    by_cases hc : ch = (k.method.string ++ [NUL])[k.index]
    · rw [if_pos (hsame.mpr hc), if_pos hc, ← hk]
      rfl
    · rw [if_neg (fun h => hc (hsame.mp h)), if_neg hc]
      cases otherMethod k.method k.index ch with
      | none => simp [fails]
      | some m =>
        rw [← hk]
        rfl

theorem step_reqMethod_space (hk : k.state = .reqMethod) (room : k.nread < HTTP_MAX_HEADER_SIZE)
    (hindex : k.index ≤ k.method.string.length) :
    if k.index = k.method.string.length then k.step SP 1 =
        ⟨{ k with nread := k.nread + 1, index := k.index + 1, state := .reqSpacesBeforeUrl },
          [], .next⟩
    else (k.step SP 1).control ≠ .next := by
  have hmod : (k.index + 1) % 256 = k.index + 1 := by
    have := string_length k.method
    omega
  have hget : k.index < (k.method.string ++ [NUL]).length := by
    rw [List.length_append, List.length_singleton]
    omega
  rw [step_header (by rw [hk]; rfl) room]
  simp only [switch, hk, reqMethod]
  rw [if_neg (show ¬ SP = NUL by decide), List.getElem?_eq_getElem hget, hmod]
  by_cases heq : k.index = k.method.string.length
  · rw [if_pos heq]
    simp [heq, goes]
  · rw [if_neg heq]
    have hlt : k.index < k.method.string.length := by omega
    obtain ⟨hspace, hnul⟩ := string_letters k.method
    have hmem := List.getElem_mem hlt
    have hne1 : k.method.string[k.index] ≠ NUL := fun h => hnul (h ▸ hmem)
    have hne2 : SP ≠ k.method.string[k.index] := fun h => hspace (h ▸ hmem)
    simp [List.getElem_append_left hlt, hne1, hne2, otherMethod_space, fails]

/-! ## Words -/

theorem trace_reqMethod {w : Bytes} (hk : k.state = .reqMethod)
    (room : k.nread + w.length < HTTP_MAX_HEADER_SIZE)
    (hindex : k.index ≤ k.method.string.length) (space : SP ∉ w)
    (passed : (machine.trace k (w ++ [SP])).ending = .next) :
    ∃ m : HttpMethod, k.method.string.take k.index ++ w = m.string ∧
      (machine.trace k (w ++ [SP])).state =
        { k with
          state := .reqSpacesBeforeUrl
          method := m
          index := m.string.length + 1
          nread := k.nread + w.length + 1 } := by
  induction w generalizing k with
  | nil =>
    have hstep := step_reqMethod_space hk room hindex
    split at hstep
    · next heq =>
      refine ⟨k.method, by rw [heq, List.take_length, List.append_nil], ?_⟩
      rw [← heq]
      show (machine.trace k [SP]).state = _
      rw [Slices.Machine.trace, show machine.step k SP 1 = _ from hstep]
      rfl
    · next hne =>
      rw [List.nil_append, Slices.Machine.trace] at passed
      cases hc : (machine.step k SP 1).control with
      | next => exact absurd hc hstep
      | error | exit | fault => simp [hc] at passed
  | cons x w ih =>
    have hlength : k.nread + (w.length + 1) < HTTP_MAX_HEADER_SIZE := room
    have hx : x ≠ SP := fun h => space (h ▸ List.mem_cons_self)
    have hstep := step_reqMethod hk (by omega) hindex hx
    rw [List.cons_append, Slices.Machine.trace] at passed ⊢
    rcases hmethod : methodStep (k.method, k.index) x with _ | p
    · rw [hmethod] at hstep
      cases hc : (machine.step k x 1).control with
      | next => exact absurd hc hstep
      | error | exit | fault => simp [hc] at passed
    · rw [hmethod] at hstep
      rw [show machine.step k x 1 = _ from hstep] at passed ⊢
      obtain ⟨htake, hnext, hle⟩ := methodStep_take hmethod
      obtain ⟨m, hm, hstate⟩ := ih (k := { k with
          nread := k.nread + 1, method := p.1, index := p.2 }) hk
        (by dsimp only; omega) hle (fun h => space (List.mem_cons_of_mem _ h)) passed
      refine ⟨m, ?_, ?_⟩
      · rw [← hm]
        dsimp only at htake ⊢
        rw [← htake, List.append_assoc, List.singleton_append]
      · dsimp only at hstate ⊢
        rw [hstate, List.length_cons]
        congr 1
        omega

theorem firstMethod_take {m : HttpMethod} (h : firstMethod ch = some m) :
    m.string.take 1 = [ch] := by
  revert h
  fun_cases firstMethod ch <;> intro h <;> cases h
  all_goals
    subst_vars
    rfl

theorem firstMethod_alpha {m : HttpMethod} (h : firstMethod ch = some m) :
    ¬ (ch = CR ∨ ch = LF) ∧ isAlpha ch = true := by
  revert h
  fun_cases firstMethod ch <;> intro h <;> cases h
  all_goals
    subst_vars
    decide

def methodBegun (k : HttpParser) (m : HttpMethod) : HttpParser :=
  { k with
    flags := {}
    contentLength := ULLONG_MAX
    state := .reqMethod
    method := m
    index := 1
    nread := k.nread + 1 }

theorem step_startReq (hk : k.state = .startReq) (room : k.nread < HTTP_MAX_HEADER_SIZE)
    (ch : UInt8) :
    if ch = CR ∨ ch = LF then k.step ch 1 = ⟨{ k with nread := k.nread + 1 }, [], .next⟩
    else
      match firstMethod ch with
      | some m => k.step ch 1 = ⟨k.methodBegun m, [.note .messageBegin], .next⟩
      | none => (k.step ch 1).control ≠ .next := by
  rw [step_header (by rw [hk]; rfl) room]
  simp only [switch, hk, startReq]
  by_cases hblank : ch = CR ∨ ch = LF
  · rw [if_pos hblank, if_pos hblank, ← hk]
    rfl
  · rw [if_neg hblank, if_neg hblank]
    cases hm : firstMethod ch with
    | none =>
      dsimp only
      split <;> simp [fails]
    | some m =>
      dsimp only
      rw [if_neg (by simp [(firstMethod_alpha hm).2])]
      rfl

theorem trace_startReq {w : Bytes} (hk : k.state = .startReq)
    (room : k.nread + w.length < HTTP_MAX_HEADER_SIZE) (space : SP ∉ w)
    (passed : (machine.trace k (w ++ [SP])).ending = .next) :
    ∃ (blank : Bytes) (m : HttpMethod), (∀ c ∈ blank, c = CR ∨ c = LF) ∧
      w = blank ++ m.string ∧ (machine.trace k (w ++ [SP])).state.method = m := by
  induction w generalizing k with
  | nil =>
    have hstep := step_startReq hk room SP
    rw [if_neg (by decide), show firstMethod SP = none from rfl] at hstep
    rw [List.nil_append, Slices.Machine.trace] at passed
    cases hc : (machine.step k SP 1).control with
    | next => exact absurd hc hstep
    | error | exit | fault => simp [hc] at passed
  | cons x w ih =>
    have hlength : k.nread + (w.length + 1) < HTTP_MAX_HEADER_SIZE := room
    have hrest : SP ∉ w := fun h => space (List.mem_cons_of_mem _ h)
    have hstep := step_startReq hk (by omega) x
    rw [List.cons_append, Slices.Machine.trace] at passed ⊢
    by_cases hblank : x = CR ∨ x = LF
    · rw [if_pos hblank] at hstep
      rw [show machine.step k x 1 = _ from hstep] at passed ⊢
      obtain ⟨blank, m, hall, hw, hmethod⟩ :=
        ih (k := { k with nread := k.nread + 1 }) hk (by dsimp only; omega) hrest passed
      exact ⟨x :: blank, m, List.forall_mem_cons.mpr ⟨hblank, hall⟩, by rw [hw]; rfl, hmethod⟩
    · rw [if_neg hblank] at hstep
      rcases hm : firstMethod x with _ | m
      · rw [hm] at hstep
        cases hc : (machine.step k x 1).control with
        | next => exact absurd hc hstep
        | error | exit | fault => simp [hc] at passed
      · rw [hm] at hstep
        rw [show machine.step k x 1 = _ from hstep] at passed ⊢
        obtain ⟨m', hword, hstate⟩ := trace_reqMethod (k := k.methodBegun m) rfl
          (by simp only [methodBegun]; omega) (string_pos m) hrest passed
        refine ⟨[], m', fun c hc => absurd hc List.not_mem_nil, ?_, ?_⟩
        · rw [← hword, show (k.methodBegun m).method.string.take (k.methodBegun m).index = [x] from
            firstMethod_take hm]
          rfl
        · exact congrArg HttpParser.method hstate

/-! ## The methods of the table -/

theorem scans_letters {w : Bytes} (hk : k.state = .reqMethod)
    (room : k.nread + w.length < HTTP_MAX_HEADER_SIZE)
    (hindex : k.index ≤ k.method.string.length) (space : SP ∉ w) {p : HttpMethod × ℕ}
    (h : w.foldlM methodStep (k.method, k.index) = some p) :
    Scans machine k none w
      { k with method := p.1, index := p.2, nread := k.nread + w.length } none [] := by
  induction w generalizing k with
  | nil =>
    obtain rfl := Option.some.inj h
    exact .nil k none
  | cons x w ih =>
    have hlength : k.nread + (w.length + 1) < HTTP_MAX_HEADER_SIZE := room
    have hx : x ≠ SP := fun h => space (h ▸ List.mem_cons_self)
    have hstep := step_reqMethod hk (by omega) hindex hx
    rw [List.foldlM_cons] at h
    obtain ⟨p', hp', hrest⟩ := Option.bind_eq_some_iff.mp h
    rw [hp'] at hstep
    have hlast := ih (k := { k with nread := k.nread + 1, method := p'.1, index := p'.2 }) hk
      (by dsimp only; omega) (methodStep_take hp').2.2
      (fun h => space (List.mem_cons_of_mem _ h)) hrest
    rw [List.length_cons, ← Nat.add_assoc, Nat.add_right_comm]
    exact .quiet hstep hlast

theorem letters (m : HttpMethod) : ∃ (x : UInt8) (w : Bytes) (m' : HttpMethod),
    m.string = x :: w ∧ firstMethod x = some m' ∧ ¬ (x = CR ∨ x = LF) ∧
      w.foldlM methodStep (m', 1) = some (m, w.length + 1) := by
  have hall : ∀ m : HttpMethod, firstMethod (m.string.headD 0) ≠ none ∧
      ¬ (m.string.headD 0 = CR ∨ m.string.headD 0 = LF) ∧
      m.string.tail.foldlM methodStep ((firstMethod (m.string.headD 0)).getD .get, 1) =
        some (m, m.string.tail.length + 1) := by
    intro m
    cases m <;> decide
  obtain ⟨hne, hblank, hfold⟩ := hall m
  obtain ⟨m', hm'⟩ := Option.ne_none_iff_exists'.mp hne
  rw [hm', Option.getD_some] at hfold
  rcases hs : m.string with _ | ⟨x, w⟩
  · have := string_pos m
    simp [hs] at this
  · rw [hs] at hm' hblank hfold
    exact ⟨x, w, m', rfl, hm', hblank, hfold⟩

theorem scans_method (m : HttpMethod) (hk : k.state = .startReq)
    (room : k.nread + m.string.length < HTTP_MAX_HEADER_SIZE) :
    Scans machine k none (m.string ++ [SP])
      { k.methodBegun m with
        state := .reqSpacesBeforeUrl
        index := m.string.length + 1
        nread := k.nread + m.string.length + 1 } none [.note .messageBegin] := by
  obtain ⟨x, w, m', hs, hfirst, hblank, hfold⟩ := letters m
  have hlen : m.string.length = w.length + 1 := by rw [hs, List.length_cons]
  have hspace : SP ∉ w := fun h => (string_letters m).1 (hs ▸ List.mem_cons_of_mem _ h)
  have hstart : k.step x 1 = ⟨k.methodBegun m', [.note .messageBegin], .next⟩ := by
    have hstep := step_startReq hk (by omega) x
    rwa [if_neg hblank, hfirst] at hstep
  have hrest := scans_letters (k := k.methodBegun m') rfl
    (by simp only [methodBegun]; omega) (string_pos m') hspace hfold
  have hlast := step_reqMethod_space (k := { k.methodBegun m with
    index := w.length + 1, nread := k.nread + 1 + w.length }) rfl (by dsimp only; omega)
    (by simp only [methodBegun]; omega)
  rw [if_pos (by simp only [methodBegun]; omega)] at hlast
  have hbegin : Scans machine k none [x] (k.methodBegun m') none [.note .messageBegin] :=
    .closed hstart rfl
  have hall := hbegin.trans (hrest.trans (.quiet hlast (.nil _ none)))
  rw [hs, List.length_cons, show k.nread + (w.length + 1) + 1 = k.nread + 1 + w.length + 1 from by
    omega]
  exact hall

theorem scans_blank {blank : Bytes} (hk : k.state = .startReq)
    (room : k.nread + blank.length < HTTP_MAX_HEADER_SIZE)
    (breaks : ∀ c ∈ blank, c = CR ∨ c = LF) :
    Scans machine k none blank { k with nread := k.nread + blank.length } none [] := by
  induction blank generalizing k with
  | nil => exact .nil k none
  | cons x w ih =>
    obtain ⟨hx, hw⟩ := List.forall_mem_cons.mp breaks
    have hlength : k.nread + (w.length + 1) < HTTP_MAX_HEADER_SIZE := room
    have hstep : k.step x 1 = ⟨{ k with nread := k.nread + 1 }, [], .next⟩ := by
      have hstep := step_startReq hk (by omega) x
      rwa [if_pos hx] at hstep
    have hlast := ih (k := { k with nread := k.nread + 1 }) hk (by dsimp only; omega) hw
    rw [List.length_cons, ← Nat.add_assoc, Nat.add_right_comm]
    exact .quiet hstep hlast

/-- A word before the first space begins a request if and only if it is a method of the table, with
line breaks before it. -/
theorem method_exact {w : Bytes} (hk : k.state = .startReq)
    (room : k.nread + w.length < HTTP_MAX_HEADER_SIZE) (space : SP ∉ w) (m : HttpMethod) :
    (machine.trace k (w ++ [SP])).ending = .next ∧
        (machine.trace k (w ++ [SP])).state.method = m ↔
      ∃ blank : Bytes, (∀ c ∈ blank, c = CR ∨ c = LF) ∧ w = blank ++ m.string := by
  constructor
  · rintro ⟨hnext, rfl⟩
    obtain ⟨blank, m, hall, hw, hm⟩ := trace_startReq hk room space hnext
    exact ⟨blank, hall, hm ▸ hw⟩
  · rintro ⟨blank, hall, rfl⟩
    rw [List.length_append] at room
    have hscan := (scans_blank hk (by omega) hall).trans (scans_method (k := { k with
      nread := k.nread + blank.length }) m hk (by dsimp only; omega))
    rw [← List.append_assoc] at hscan
    obtain ⟨hend, hstate⟩ := hscan.trace
    exact ⟨hend, by rw [hstate]; rfl⟩

theorem method_exact_purge : (machine.trace (init .request) (ascii "\nPURGE" ++ [SP])).ending =
      .next ∧
    (machine.trace (init .request) (ascii "\nPURGE" ++ [SP])).state.method = .purge ↔
      ∃ blank : Bytes, (∀ c ∈ blank, c = CR ∨ c = LF) ∧
        ascii "\nPURGE" = blank ++ HttpMethod.purge.string :=
  method_exact rfl (by decide) (by decide) .purge

end Hwnet.Http.HttpParser
