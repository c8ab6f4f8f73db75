import Hwnet.HttpParserNames

set_option autoImplicit false

/-!
# Header lines

What a line of the header block does to the parser. A line ends with the first byte of the next one,
since a line that begins with a blank would go on with it.
-/
namespace Hwnet.Http.HttpParser

open Slices (Scans)

variable {k : HttpParser} {ch x : UInt8} {h : HeaderState} {f : Flags} {n : UInt64}

/-! ## What a header means -/

def lengthStep (n : UInt64) (ch : UInt8) : Option UInt64 :=
  if ch = SP then some n
  else if !isNum ch then none
  else if (ULLONG_MAX - 10) / 10 < n then none
  else some (n * 10 + (ch - 0x30).toUInt64)

def readLength : Bytes → Option UInt64
  | [] => none
  | x :: v => if isNum x then v.foldlM lengthStep (x - 0x30).toUInt64 else none

/-- What a value does to the flags and the content length, by the kind of its name. -/
def meaning (h : HeaderState) (v : Bytes) (f : Flags) (n : UInt64) : Option (Flags × UInt64) :=
  match v, h with
  | [], _ => some (f, n)
  | _ :: _, .upgrade => some ({ f with upgrade := true }, n)
  | v, .connection =>
    if Spaced KEEP_ALIVE v then some ({ f with connectionKeepAlive := true }, n)
    else if Spaced CLOSE v then some ({ f with connectionClose := true }, n)
    else some (f, n)
  | v, .transferEncoding =>
    if Spaced CHUNKED v then some ({ f with chunked := true }, n) else some (f, n)
  | v, .contentLength => (readLength v).map (f, ·)
  | _, _ => some (f, n)

/-! ## The bytes of a value -/

def valued : HeaderState → Bool
  | .general | .matchingTransferEncodingChunked | .matchingConnectionKeepAlive
  | .matchingConnectionClose | .transferEncodingChunked | .connectionKeepAlive
  | .connectionClose => true
  | _ => false

theorem valued_step {p : HeaderState × ℕ} (hp : valued p.1 = true) (ch : UInt8) :
    valued (valueStep p ch).1 = true := by
  obtain ⟨m, i⟩ := p
  have hmatch {s : Bytes} {c : UInt8} {h : HeaderState} (hh : valued h = true) :
      valued (matchStep (m, i) c s h).1 = true := by
    unfold matchStep
    dsimp only
    split
    · rfl
    · split
      · exact hh
      · exact hp
  cases m <;> simp only [valueStep] <;> first | exact hmatch rfl | (split <;> rfl) | rfl

theorem step_headerValue (hk : k.state = .headerValue) (hvalued : valued k.headerState = true)
    (room : k.nread < HTTP_MAX_HEADER_SIZE) (hcr : ch ≠ CR) (hlf : ch ≠ LF) :
    k.step ch 1 =
      ⟨{ k with
          nread := k.nread + 1
          headerState := (valueStep (k.headerState, k.index) ch).1
          index := (valueStep (k.headerState, k.index) ch).2 }, [], .next⟩ := by
  rw [step_header (by rw [hk]; rfl) room]
  simp only [switch, hk, headerValue, if_neg hcr, if_neg hlf]
  cases hs : k.headerState <;> rw [hs] at hvalued <;>
    first
    | exact absurd hvalued (by decide)
    | skip
  all_goals
    dsimp only
    simp only [matching_eq, valueStep]
    first
    | rfl
    | (split <;> rfl)

theorem step_contentLength (hk : k.state = .headerValue) (hlength : k.headerState = .contentLength)
    (room : k.nread < HTTP_MAX_HEADER_SIZE) (hcr : ch ≠ CR) (hlf : ch ≠ LF)
    (hn : lengthStep k.contentLength ch = some n) :
    k.step ch 1 = ⟨{ k with nread := k.nread + 1, contentLength := n }, [], .next⟩ := by
  rw [step_header (by rw [hk]; rfl) room]
  simp only [switch, hk, headerValue, if_neg hcr, if_neg hlf, hlength, contentLengthDigit]
  revert hn
  unfold lengthStep
  split_ifs <;> intro hn <;> cases hn
  · rfl
  · rfl

theorem scans_valued {v : Bytes} (hk : k.state = .headerValue)
    (hvalued : valued k.headerState = true) (room : k.nread + v.length < HTTP_MAX_HEADER_SIZE)
    (breaks : CR ∉ v ∧ LF ∉ v) (l : Bytes) :
    Scans machine k (some (.headerValue, l)) v
      { k with
        nread := k.nread + v.length
        headerState := (v.foldl valueStep (k.headerState, k.index)).1
        index := (v.foldl valueStep (k.headerState, k.index)).2 }
      (some (.headerValue, l ++ v)) [] := by
  induction v generalizing k l with
  | nil =>
    rw [List.append_nil]
    exact .nil k _
  | cons x v ih =>
    have hlength : k.nread + (v.length + 1) < HTTP_MAX_HEADER_SIZE := room
    rw [List.mem_cons, not_or, List.mem_cons, not_or] at breaks
    have hstep := step_headerValue hk hvalued (by omega) (Ne.symm breaks.1.1) (Ne.symm breaks.2.1)
    have hlast := ih (k := { k with
        nread := k.nread + 1
        headerState := (valueStep (k.headerState, k.index) x).1
        index := (valueStep (k.headerState, k.index) x).2 }) hk (valued_step hvalued x)
      (by dsimp only; omega) ⟨breaks.1.2, breaks.2.2⟩ (l ++ [x])
    rw [List.append_assoc, List.singleton_append] at hlast
    rw [List.length_cons, ← Nat.add_assoc, Nat.add_right_comm]
    exact .quiet hstep hlast

theorem scans_contentLength {v : Bytes} (hk : k.state = .headerValue)
    (hlength : k.headerState = .contentLength)
    (room : k.nread + v.length < HTTP_MAX_HEADER_SIZE) (breaks : CR ∉ v ∧ LF ∉ v)
    (hn : v.foldlM lengthStep k.contentLength = some n) (l : Bytes) :
    Scans machine k (some (.headerValue, l)) v
      { k with nread := k.nread + v.length, contentLength := n }
      (some (.headerValue, l ++ v)) [] := by
  induction v generalizing k l with
  | nil =>
    obtain rfl := Option.some.inj hn
    rw [List.append_nil]
    exact .nil k _
  | cons x v ih =>
    have hlen : k.nread + (v.length + 1) < HTTP_MAX_HEADER_SIZE := room
    rw [List.mem_cons, not_or, List.mem_cons, not_or] at breaks
    rw [List.foldlM_cons] at hn
    obtain ⟨n', hfirst, hrest⟩ := Option.bind_eq_some_iff.mp hn
    have hstep := step_contentLength hk hlength (by omega) (Ne.symm breaks.1.1)
      (Ne.symm breaks.2.1) hfirst
    have hlast := ih (k := { k with nread := k.nread + 1, contentLength := n' }) hk hlength
      (by dsimp only; omega) ⟨breaks.1.2, breaks.2.2⟩ hrest (l ++ [x])
    rw [List.append_assoc, List.singleton_append] at hlast
    rw [List.length_cons, ← Nat.add_assoc, Nat.add_right_comm]
    exact .quiet hstep hlast

/-! ## Between the lines -/

def lineStart (k : HttpParser) : Prop :=
  k.state = .headerFieldStart ∨ k.state = .headerValueLws ∨ k.state = .headerValueDiscardLws

/-- The flags, with that of the line before. -/
def lineFlags (k : HttpParser) : Flags := if k.state = .headerValueLws then k.headerFlags else k.flags

/-- An empty value is reported with the next line. -/
def pending (k : HttpParser) : List Report :=
  if k.state = .headerValueDiscardLws then [.data .headerValue []] else []

def line (k : HttpParser) : HttpParser :=
  { k with flags := k.lineFlags, state := .headerFieldStart }

theorem step_line {c : UInt8} (start : k.lineStart) (room : k.nread < HTTP_MAX_HEADER_SIZE)
    (hsp : c ≠ SP) (hht : c ≠ HT) : ∃ acts : List (Slices.Act Mark Note),
      k.step c 1 = ({ k.line with nread := k.nread + 1 }.headerFieldStart c).after acts ∧
        Slices.Piece.perform c none acts = some (none, k.pending) := by
  have hblank : ¬ (c = SP ∨ c = HT) := by simp [hsp, hht]
  rcases start with hk | hk | hk
  · refine ⟨[], ?_, by simp [pending, hk, Slices.Piece.perform]⟩
    rw [step_header (by rw [hk]; rfl) room]
    simp only [switch, hk, line, lineFlags]
    rfl
  · refine ⟨[], ?_, by simp [pending, hk, Slices.Piece.perform]⟩
    rw [step_header (by rw [hk]; rfl) room]
    simp only [switch, hk, headerValueLws, if_neg hblank, line, lineFlags]
    rfl
  · refine ⟨[.mark .headerValue, .flush .headerValue], ?_, ?_⟩
    · rw [step_header (by rw [hk]; rfl) room]
      simp only [switch, hk, headerValueDiscardLws, if_neg hblank, line, lineFlags]
      rfl
    · simp only [pending, hk]
      rfl

/-! ## Values -/

def valueBegun (h : HeaderState) (x : UInt8) (f : Flags) : HeaderState × Flags :=
  match h with
  | .upgrade => (.general, { f with upgrade := true })
  | .transferEncoding =>
    (if lower x = 0x63 then .matchingTransferEncodingChunked else .general, f)
  | .connection =>
    (if lower x = 0x6b then .matchingConnectionKeepAlive
      else if lower x = 0x63 then .matchingConnectionClose
      else .general, f)
  | _ => (.general, f)

theorem valueBegun_valued (h : HeaderState) (x : UInt8) (f : Flags) :
    valued (valueBegun h x f).1 = true := by
  unfold valueBegun
  repeat' split
  all_goals rfl

def flagsOf (h : HeaderState) (f : Flags) : Flags :=
  match h with
  | .connectionKeepAlive => { f with connectionKeepAlive := true }
  | .connectionClose => { f with connectionClose := true }
  | .transferEncodingChunked => { f with chunked := true }
  | _ => f

theorem headerFlags_eq (k : HttpParser) : k.headerFlags = flagsOf k.headerState k.flags := by
  unfold headerFlags flagsOf
  cases k.headerState <;> rfl

theorem flagsOf_idle {e : HeaderState} (he : effective e = false) : flagsOf e f = f := by
  cases e <;> first | rfl | cases he

theorem flagsOf_foldl {p : HeaderState × ℕ} (spot : ValueSpot p) (r : Bytes)
    (never : ∀ h, ¬ due p h r) : flagsOf (r.foldl valueStep p).1 f = f := by
  refine flagsOf_idle ?_
  by_contra heffective
  exact never _ ((valueStep_foldl spot r _).mpr ⟨rfl, by simpa using heffective⟩)

theorem flagsOf_due {p : HeaderState × ℕ} (spot : ValueSpot p) {r : Bytes} {e : HeaderState}
    (h : due p e r) : flagsOf (r.foldl valueStep p).1 f = flagsOf e f := by
  rw [((valueStep_foldl spot r e).mp h).1]

theorem meaning_eq (x : UInt8) (r : Bytes) (hlength : h ≠ .contentLength) :
    meaning h (x :: r) f n =
      some (flagsOf (r.foldl valueStep ((valueBegun h x f).1, 0)).1 (valueBegun h x f).2, n) := by
  have hnever (f : Flags) : flagsOf (r.foldl valueStep (.general, 0)).1 f = f :=
    flagsOf_foldl (p := (.general, 0)) trivial r fun _ => id
  have hspaced (s : Bytes) (c : UInt8) (hc : lower x = c) :
      Spaced (c :: s) (x :: r) = Spaced s r := by
    simp [Spaced, hc]
  have hother (s : Bytes) (c : UInt8) (hc : lower x ≠ c) : Spaced (c :: s) (x :: r) = false := by
    simp [Spaced, hc]
  cases h
  case contentLength => exact absurd rfl hlength
  case connection =>
    simp only [meaning, valueBegun]
    by_cases hkeep : lower x = 0x6b
    · have hclose : Spaced CLOSE (x :: r) = false := hother _ 0x63 (by rw [hkeep]; decide)
      have hspot : ValueSpot (.matchingConnectionKeepAlive, 0) := by
        show 0 + 1 < KEEP_ALIVE.length
        decide
      rw [if_pos hkeep, hclose, show Spaced KEEP_ALIVE (x :: r) = _ from hspaced _ 0x6b hkeep]
      split
      · next hdue => rw [flagsOf_due hspot (e := .connectionKeepAlive) ⟨rfl, hdue⟩]; rfl
      · next hdue =>
        rw [flagsOf_foldl hspot r]
        · rfl
        · rintro h' ⟨-, hd⟩
          exact hdue hd
    · have hno : Spaced KEEP_ALIVE (x :: r) = false := hother _ 0x6b hkeep
      rw [if_neg hkeep, hno]
      by_cases hclose : lower x = 0x63
      · have hspot : ValueSpot (.matchingConnectionClose, 0) := by
          show 0 + 1 < CLOSE.length
          decide
        rw [if_pos hclose, show Spaced CLOSE (x :: r) = _ from hspaced _ 0x63 hclose]
        simp only [Bool.false_eq_true, if_false]
        split
        · next hdue => rw [flagsOf_due hspot (e := .connectionClose) ⟨rfl, hdue⟩]; rfl
        · next hdue =>
          rw [flagsOf_foldl hspot r]
          rintro h' ⟨-, hd⟩
          exact hdue hd
      · have hno' : Spaced CLOSE (x :: r) = false := hother _ 0x63 hclose
        rw [if_neg hclose, hno', hnever]
        rfl
  case transferEncoding =>
    simp only [meaning, valueBegun]
    by_cases hchunked : lower x = 0x63
    · have hspot : ValueSpot (.matchingTransferEncodingChunked, 0) := by
        show 0 + 1 < CHUNKED.length
        decide
      rw [if_pos hchunked, show Spaced CHUNKED (x :: r) = _ from hspaced _ 0x63 hchunked]
      split
      · next hdue => rw [flagsOf_due hspot (e := .transferEncodingChunked) ⟨rfl, hdue⟩]; rfl
      · next hdue =>
        rw [flagsOf_foldl hspot r]
        rintro h' ⟨-, hd⟩
        exact hdue hd
    · have hno : Spaced CHUNKED (x :: r) = false := hother _ 0x63 hchunked
      rw [if_neg hchunked, hno, hnever]
      rfl
  all_goals
    simp only [meaning, valueBegun, hnever]

theorem step_valueBegin (hk : k.state = .headerValueDiscardWs)
    (room : k.nread < HTTP_MAX_HEADER_SIZE) (hsp : x ≠ SP) (hht : x ≠ HT) (hcr : x ≠ CR)
    (hlf : x ≠ LF) (hlength : settle k.headerState ≠ .contentLength) :
    k.step x 1 =
      ⟨{ k with
          nread := k.nread + 1
          state := .headerValue
          index := 0
          headerState := (valueBegun (settle k.headerState) x k.flags).1
          flags := (valueBegun (settle k.headerState) x k.flags).2 }, [.mark .headerValue],
        .next⟩ := by
  have hblank : ¬ (x = SP ∨ x = HT) := by simp [hsp, hht]
  rw [step_header (by rw [hk]; rfl) room]
  simp only [switch, hk, headerValueDiscardWs, if_neg hblank, if_neg hcr, if_neg hlf,
    headerValueStart]
  cases hs : k.headerState <;> rw [hs] at hlength <;>
    first
    | exact absurd rfl hlength
    | rfl

theorem step_lengthBegin (hk : k.state = .headerValueDiscardWs)
    (room : k.nread < HTTP_MAX_HEADER_SIZE) (hnum : isNum x = true)
    (hlength : settle k.headerState = .contentLength) :
    k.step x 1 =
      ⟨{ k with
          nread := k.nread + 1
          state := .headerValue
          index := 0
          contentLength := (x - 0x30).toUInt64 }, [.mark .headerValue], .next⟩ := by
  have hne {c : UInt8} (hc : isNum c = false) : x ≠ c := by
    rintro rfl
    simp [hc] at hnum
  have hblank : ¬ (x = SP ∨ x = HT) := by
    rw [not_or]
    exact ⟨hne (by decide), hne (by decide)⟩
  rw [step_header (by rw [hk]; rfl) room]
  simp only [switch, hk, headerValueDiscardWs, if_neg hblank, if_neg (hne (c := CR) (by decide)),
    if_neg (hne (c := LF) (by decide)), headerValueStart]
  cases hs : k.headerState <;> rw [hs] at hlength <;>
    first
    | exact absurd hlength (by decide)
    | skip
  simp only [hnum, Bool.not_true, Bool.false_eq_true, if_false]
  rw [← hs]
  rfl

theorem scans_valueEnd (hk : k.state = .headerValue) (room : k.nread + 1 < HTTP_MAX_HEADER_SIZE)
    (l : Bytes) : Scans machine k (some (.headerValue, l)) [CR, LF]
      { k with nread := k.nread + 2, state := .headerValueLws } none [.data .headerValue l] := by
  have hcr : k.step CR 1 =
      ⟨{ k with nread := k.nread + 1, state := .headerAlmostDone }, [.flush .headerValue],
        .next⟩ := by
    rw [step_header (by rw [hk]; rfl) (by omega)]
    simp only [switch, hk, headerValue]
    rfl
  have hlf : { k with nread := k.nread + 1, state := .headerAlmostDone }.step LF 1 =
      ⟨{ k with nread := k.nread + 2, state := .headerValueLws }, [], .next⟩ := by
    rw [step_header rfl room]
    rfl
  have hfirst : Scans machine k (some (.headerValue, l)) [CR]
      { k with nread := k.nread + 1, state := .headerAlmostDone } none [.data .headerValue l] :=
    .closed hcr (by simp [Slices.Piece.perform, Slices.Piece.act])
  exact hfirst.trans (.quiet hlf (.nil _ none))

/-- A value that is not empty, and the end of its line. -/
theorem scans_value {r : Bytes} (hk : k.state = .headerValueDiscardWs) (hsp : x ≠ SP)
    (hht : x ≠ HT) (breaks : CR ∉ x :: r ∧ LF ∉ x :: r)
    (room : k.nread + r.length + 2 < HTTP_MAX_HEADER_SIZE)
    (hm : meaning (settle k.headerState) (x :: r) k.flags k.contentLength = some (f, n)) :
    ∃ j : HttpParser, Scans machine k none (x :: r ++ [CR, LF]) j none
        [.data .headerValue (x :: r)] ∧ j.state = .headerValueLws ∧
      j.line = { k with
        state := .headerFieldStart
        flags := f
        contentLength := n
        nread := k.nread + r.length + 3
        headerState := j.headerState
        index := j.index } := by
  rw [List.mem_cons, not_or, List.mem_cons, not_or] at breaks
  by_cases hlength : settle k.headerState = .contentLength
  · have hread : (readLength (x :: r)).map (k.flags, ·) = some (f, n) := by
      rw [hlength] at hm
      exact hm
    obtain ⟨n', hn, heq⟩ := Option.map_eq_some_iff.mp hread
    obtain ⟨rfl, rfl⟩ := Prod.mk.inj heq
    simp only [readLength] at hn
    split at hn
    · next hnum =>
      have hfirst : Scans machine k none [x] _ (some (.headerValue, [x])) [] :=
        .opens (step_lengthBegin hk (by omega) hnum hlength) rfl
      have hs : k.headerState = .contentLength := by
        revert hlength
        cases k.headerState <;> decide
      have hrest := scans_contentLength (k := { k with
          nread := k.nread + 1
          state := .headerValue
          index := 0
          contentLength := (x - 0x30).toUInt64 }) rfl hs (by dsimp only; omega)
        ⟨breaks.1.2, breaks.2.2⟩ hn [x]
      have hend := scans_valueEnd (k := { k with
          nread := k.nread + 1 + r.length
          state := .headerValue
          index := 0
          contentLength := n' }) rfl (by dsimp only; omega) (x :: r)
      refine ⟨_, hfirst.trans (hrest.trans hend), rfl, ?_⟩
      simp only [line, lineFlags, headerFlags, hs, if_true]
      congr 1
      omega
    · cases hn
  · rw [meaning_eq x r hlength, Option.some.injEq, Prod.mk.injEq] at hm
    obtain ⟨hf, rfl⟩ := hm
    have hfirst : Scans machine k none [x] _ (some (.headerValue, [x])) [] :=
      .opens (step_valueBegin hk (by omega) hsp hht (Ne.symm breaks.1.1) (Ne.symm breaks.2.1)
        hlength) rfl
    have hrest := scans_valued (k := { k with
        nread := k.nread + 1
        state := .headerValue
        index := 0
        headerState := (valueBegun (settle k.headerState) x k.flags).1
        flags := (valueBegun (settle k.headerState) x k.flags).2 }) rfl
      (valueBegun_valued _ x _) (by dsimp only; omega) ⟨breaks.1.2, breaks.2.2⟩ [x]
    have hend := scans_valueEnd (k := { k with
        nread := k.nread + 1 + r.length
        state := .headerValue
        index := (r.foldl valueStep ((valueBegun (settle k.headerState) x k.flags).1, 0)).2
        headerState := (r.foldl valueStep ((valueBegun (settle k.headerState) x k.flags).1, 0)).1
        flags := (valueBegun (settle k.headerState) x k.flags).2 }) rfl (by dsimp only; omega)
      (x :: r)
    refine ⟨_, hfirst.trans (hrest.trans hend), rfl, ?_⟩
    simp only [line, lineFlags, headerFlags_eq, if_true, hf]
    congr 1
    omega

/-! ## Names -/

theorem nameStep_ofName {p : HeaderState × ℕ} (hp : p.1.ofName = true) (c : UInt8) :
    (nameStep p c).1.ofName = true := by
  obtain ⟨m, i⟩ := p
  have hmatch {s : Bytes} {h : HeaderState} (hh : h.ofName = true) :
      (matchStep (m, i) c s h).1.ofName = true := by
    unfold matchStep
    dsimp only
    split
    · rfl
    · split
      · exact hh
      · exact hp
  cases m <;> simp only [nameStep] <;> first | exact hmatch rfl | rfl | (repeat' split) <;> rfl

theorem token_break : token CR = 0 ∧ token LF = 0 ∧ token colon = 0 := by decide

theorem step_name (hk : k.state = .headerField) (hname : k.headerState.ofName)
    (room : k.nread < HTTP_MAX_HEADER_SIZE) (htoken : token ch ≠ 0) :
    k.step ch 1 =
      ⟨{ k with
          nread := k.nread + 1
          headerState := (nameStep (k.headerState, k.index) (token ch)).1
          index := (nameStep (k.headerState, k.index) (token ch)).2 }, [], .next⟩ := by
  rw [step_header (by rw [hk]; rfl) room]
  simp only [switch, hk, headerField, ne_eq, htoken, not_false_eq_true, if_true]
  exact headerFieldToken_eq (k := { k with nread := k.nread + 1, state := .headerField }) hname
    htoken

theorem scans_name {w : Bytes} (hk : k.state = .headerField) (hname : k.headerState.ofName)
    (room : k.nread + w.length < HTTP_MAX_HEADER_SIZE) (tokens : ∀ c ∈ w, token c ≠ 0)
    (l : Bytes) :
    Scans machine k (some (.headerField, l)) w
      { k with
        nread := k.nread + w.length
        headerState := ((w.map token).foldl nameStep (k.headerState, k.index)).1
        index := ((w.map token).foldl nameStep (k.headerState, k.index)).2 }
      (some (.headerField, l ++ w)) [] := by
  induction w generalizing k l with
  | nil =>
    rw [List.append_nil]
    exact .nil k _
  | cons x w ih =>
    have hlength : k.nread + (w.length + 1) < HTTP_MAX_HEADER_SIZE := room
    obtain ⟨hx, hw⟩ := List.forall_mem_cons.mp tokens
    have hstep := step_name hk hname (by omega) hx
    have hlast := ih (k := { k with
        nread := k.nread + 1
        headerState := (nameStep (k.headerState, k.index) (token x)).1
        index := (nameStep (k.headerState, k.index) (token x)).2 }) hk
      (nameStep_ofName hname (token x)) (by dsimp only; omega) hw (l ++ [x])
    rw [List.append_assoc, List.singleton_append] at hlast
    rw [List.length_cons, ← Nat.add_assoc, Nat.add_right_comm]
    exact .quiet hstep hlast

theorem scans_colon (hk : k.state = .headerField) (room : k.nread < HTTP_MAX_HEADER_SIZE)
    (l : Bytes) : Scans machine k (some (.headerField, l)) [colon]
      { k with nread := k.nread + 1, state := .headerValueDiscardWs } none
      [.data .headerField l] := by
  have hcolon : k.step colon 1 =
      ⟨{ k with nread := k.nread + 1, state := .headerValueDiscardWs }, [.flush .headerField],
        .next⟩ := by
    rw [step_header (by rw [hk]; rfl) room]
    simp only [switch, hk, headerField, token_break.2.2]
    rfl
  exact .closed hcolon (by simp [Slices.Piece.perform, Slices.Piece.act])

theorem scans_field {w : Bytes} (start : k.lineStart)
    (room : k.nread + w.length + 1 < HTTP_MAX_HEADER_SIZE)
    (tokens : ∀ c ∈ x :: w, token c ≠ 0) : ∃ j : HttpParser,
      Scans machine k none (x :: w ++ [colon]) j none
        (k.pending ++ [.data .headerField (x :: w)]) ∧
      settle j.headerState = kind (x :: w) ∧
      j = { k.line with
        state := .headerValueDiscardWs
        nread := k.nread + w.length + 2
        headerState := j.headerState
        index := j.index } := by
  obtain ⟨hx, hw⟩ := List.forall_mem_cons.mp tokens
  have hne {c : UInt8} (hc : token c = 0) : x ≠ c := fun h => hx (h ▸ hc)
  obtain ⟨acts, hstep, hacts⟩ := step_line start (by omega) (hne token_space)
    (hne (c := HT) (by decide))
  have hfirst : Scans machine k none [x]
      { k.line with
        nread := k.nread + 1
        state := .headerField
        index := 0
        headerState := firstHeaderState (token x) } (some (.headerField, [x])) k.pending := by
    refine .opens (?_ : machine.step k x 1 = ⟨_, acts ++ [.mark .headerField], .next⟩) ?_
    · refine hstep.trans ?_
      simp only [headerFieldStart, if_neg (hne token_break.1), if_neg (hne token_break.2.1), hx,
        if_false]
      rfl
    · rw [Slices.Piece.perform_append, hacts]
      simp [Slices.Piece.perform, Slices.Piece.act]
  have hofName : (firstHeaderState (token x)).ofName = true := by
    unfold firstHeaderState
    repeat' split
    all_goals rfl
  have hrest := scans_name (k := { k.line with
      nread := k.nread + 1
      state := .headerField
      index := 0
      headerState := firstHeaderState (token x) }) rfl hofName (by dsimp only; omega) hw [x]
  have hlast := scans_colon (k := { k.line with
      nread := k.nread + 1 + w.length
      state := .headerField
      index := ((w.map token).foldl nameStep (firstHeaderState (token x), 0)).2
      headerState := ((w.map token).foldl nameStep (firstHeaderState (token x), 0)).1 }) rfl
    (by dsimp only; omega) (x :: w)
  refine ⟨_, hfirst.trans (hrest.trans hlast), settle_name x w, ?_⟩
  dsimp only
  congr 1
  omega

theorem scans_ws {blank : Bytes} (hk : k.state = .headerValueDiscardWs)
    (room : k.nread + blank.length < HTTP_MAX_HEADER_SIZE)
    (blanks : ∀ c ∈ blank, c = SP ∨ c = HT) :
    Scans machine k none blank { k with nread := k.nread + blank.length } none [] := by
  induction blank generalizing k with
  | nil => exact .nil k none
  | cons x w ih =>
    have hlength : k.nread + (w.length + 1) < HTTP_MAX_HEADER_SIZE := room
    obtain ⟨hx, hw⟩ := List.forall_mem_cons.mp blanks
    have hstep : k.step x 1 = ⟨{ k with nread := k.nread + 1 }, [], .next⟩ := by
      rw [step_header (by rw [hk]; rfl) (by omega)]
      simp only [switch, hk, headerValueDiscardWs, if_pos hx]
      rw [← hk]
      rfl
    have hlast := ih (k := { k with nread := k.nread + 1 }) hk (by dsimp only; omega) hw
    rw [List.length_cons, ← Nat.add_assoc, Nat.add_right_comm]
    exact .quiet hstep hlast

theorem scans_noValue (hk : k.state = .headerValueDiscardWs)
    (room : k.nread + 1 < HTTP_MAX_HEADER_SIZE) :
    Scans machine k none [CR, LF]
      { k with nread := k.nread + 2, state := .headerValueDiscardLws } none [] := by
  have hcr : k.step CR 1 =
      ⟨{ k with nread := k.nread + 1, state := .headerValueDiscardWsAlmostDone }, [], .next⟩ := by
    rw [step_header (by rw [hk]; rfl) (by omega)]
    simp only [switch, hk, headerValueDiscardWs]
    rfl
  have hlf : { k with nread := k.nread + 1, state := .headerValueDiscardWsAlmostDone }.step LF 1 =
      ⟨{ k with nread := k.nread + 2, state := .headerValueDiscardLws }, [], .next⟩ := by
    rw [step_header rfl room]
    rfl
  exact .quiet hcr (.quiet hlf (.nil _ none))

/-! ## Lines -/

structure Header where
  name : Bytes
  blank : Bytes
  value : Bytes
  deriving DecidableEq, Repr

namespace Header

def text (d : Header) : Bytes := d.name ++ colon :: (d.blank ++ (d.value ++ [CR, LF]))

structure Legal (d : Header) : Prop where
  name : d.name ≠ []
  tokens : ∀ c ∈ d.name, token c ≠ 0
  blank : ∀ c ∈ d.blank, c = SP ∨ c = HT
  first : ∀ c ∈ d.value.head?, c ≠ SP ∧ c ≠ HT
  breaks : CR ∉ d.value ∧ LF ∉ d.value

instance (d : Header) : Decidable d.Legal :=
  decidable_of_iff
    (d.name ≠ [] ∧ d.name.all (fun c => token c != 0) = true ∧
      d.blank.all (fun c => c == SP || c == HT) = true ∧
      d.value.head?.all (fun c => c != SP && c != HT) = true ∧ CR ∉ d.value ∧ LF ∉ d.value)
    ⟨fun ⟨hname, htokens, hblank, hfirst, hbreaks⟩ =>
      ⟨hname, by simpa using htokens, by simpa using hblank,
        by simpa [Option.all_eq_true] using hfirst, hbreaks⟩,
    fun h => ⟨h.name, by simpa using h.tokens, by simpa using h.blank,
      by simpa [Option.all_eq_true] using h.first, h.breaks⟩⟩

def reports (d : Header) : List Report := [.data .headerField d.name, .data .headerValue d.value]

end Header

def meanings (hs : List Header) (f : Flags) (n : UInt64) : Option (Flags × UInt64) :=
  hs.foldlM (fun p d => meaning (kind d.name) d.value p.1 p.2) (f, n)

/-- The line of a header, whose value is reported with the next line if it is empty. -/
theorem scans_header {d : Header} (legal : d.Legal) (start : k.lineStart)
    (room : k.nread + d.text.length ≤ HTTP_MAX_HEADER_SIZE)
    (hm : meaning (kind d.name) d.value k.lineFlags k.contentLength = some (f, n)) :
    ∃ (j : HttpParser) (out : List Report), Scans machine k none d.text j none out ∧ j.lineStart ∧
      out ++ j.pending = k.pending ++ d.reports ∧
      j.line = { k.line with
        flags := f
        contentLength := n
        nread := k.nread + d.text.length
        headerState := j.headerState
        index := j.index } := by
  obtain ⟨name, blank, value⟩ := d
  obtain ⟨hname, htokens, hblank, hfirst, hbreaks⟩ := legal
  obtain ⟨x, w, rfl⟩ := List.exists_cons_of_ne_nil hname
  dsimp only at htokens hblank hfirst hbreaks hm
  simp only [Header.text, List.length_append, List.length_cons, List.length_nil] at room ⊢
  obtain ⟨i, hfield, hkind, hi⟩ := scans_field start (by omega) htokens
  have hnread : i.nread = k.nread + w.length + 2 := by rw [hi]
  have histate : i.state = .headerValueDiscardWs := by rw [hi]
  have hws := scans_ws histate (by omega) hblank
  have hhead := hfield.trans hws
  rw [List.append_nil] at hhead
  have htext (rest : Bytes) : (x :: w ++ [colon] ++ blank) ++ rest =
      x :: w ++ colon :: (blank ++ rest) := by simp
  cases value with
  | nil =>
    have hnone := scans_noValue (k := { i with nread := i.nread + blank.length }) histate
      (by dsimp only; omega)
    have hall := hhead.trans hnone
    rw [htext, List.append_nil] at hall
    obtain ⟨rfl, rfl⟩ : k.lineFlags = f ∧ k.contentLength = n := by
      simpa [meaning] using hm
    refine ⟨_, _, hall, Or.inr (Or.inr rfl), ?_, ?_⟩
    · simp [pending, Header.reports]
    · rw [hi]
      simp only [line, lineFlags]
      congr 1
      simp only [List.length_nil]
      omega
  | cons y r =>
    obtain ⟨hsp, hht⟩ := hfirst y rfl
    rw [← hkind] at hm
    have hiflags : i.flags = k.lineFlags ∧ i.contentLength = k.contentLength := by
      rw [hi]
      exact ⟨rfl, rfl⟩
    rw [← hiflags.1, ← hiflags.2] at hm
    simp only [List.length_cons] at room
    obtain ⟨j, hvalue, hj, hline⟩ := scans_value (k := { i with nread := i.nread + blank.length })
      histate hsp hht hbreaks (by dsimp only; omega) hm
    have hall := hhead.trans hvalue
    rw [htext] at hall
    refine ⟨j, _, hall, Or.inr (Or.inl hj), ?_, ?_⟩
    · simp [pending, hj, Header.reports]
    · rw [hline, hi]
      simp only [line]
      congr 1
      simp only [List.length_cons]
      omega

theorem scans_headers {hs : List Header} (legal : ∀ d ∈ hs, d.Legal) (start : k.lineStart)
    (room : k.nread + (hs.flatMap Header.text).length ≤ HTTP_MAX_HEADER_SIZE)
    (hm : meanings hs k.lineFlags k.contentLength = some (f, n)) :
    ∃ (j : HttpParser) (out : List Report),
      Scans machine k none (hs.flatMap Header.text) j none out ∧ j.lineStart ∧
      out ++ j.pending = k.pending ++ hs.flatMap Header.reports ∧
      j.line = { k.line with
        flags := f
        contentLength := n
        nread := k.nread + (hs.flatMap Header.text).length
        headerState := j.headerState
        index := j.index } := by
  induction hs generalizing k with
  | nil =>
    obtain ⟨rfl, rfl⟩ : k.lineFlags = f ∧ k.contentLength = n := by
      simpa [meanings] using hm
    exact ⟨k, [], .nil k none, start, by simp, rfl⟩
  | cons d hs ih =>
    obtain ⟨hd, hrest⟩ := List.forall_mem_cons.mp legal
    rw [List.flatMap_cons, List.length_append] at room
    rw [meanings, List.foldlM_cons] at hm
    obtain ⟨⟨f', n'⟩, hfirst, hlast⟩ := Option.bind_eq_some_iff.mp hm
    obtain ⟨i, out, hscan, hi, hout, hline⟩ := scans_header hd start (by omega) hfirst
    have hflags : i.lineFlags = f' := congrArg flags hline
    have hlength : i.contentLength = n' := congrArg contentLength hline
    have hnread : i.nread = k.nread + d.text.length := congrArg nread hline
    obtain ⟨j, out', hscans, hj, hout', hline'⟩ := ih hrest hi (by omega)
      (by rw [hflags, hlength]; exact hlast)
    refine ⟨j, out ++ out', hscan.trans hscans, hj, ?_, ?_⟩
    · rw [List.append_assoc, hout', ← List.append_assoc, hout, List.append_assoc,
        List.flatMap_cons]
    · rw [hline', hline, hnread, List.flatMap_cons, List.length_append, Nat.add_assoc]

end Hwnet.Http.HttpParser
