import Hwnet.HttpParserText
import Hwnet.Numerals

set_option autoImplicit false

/-!
# What is accepted

Which content lengths and chunk sizes are accepted, the number that is read of them, and what a
header block comes to.
-/
namespace Hwnet.Http.HttpParser

open Slices (Scans)

variable {k j : HttpParser} {x : UInt8} {f f' : Flags} {n n' : UInt64} {v : Bytes} {m : ℕ}

/-! ## Numerals -/

def decimalDigit (c : UInt8) : Option ℕ := if isNum c then some (c - 0x30).toNat else none

def hexDigit (c : UInt8) : Option ℕ := (unhex c).map UInt8.toNat

/-- A content length begins with a digit, and spaces behind it do not count. -/
structure IsLength (v : Bytes) (m : ℕ) : Prop where
  first : ∃ c ∈ v.head?, isNum c = true
  digits : ∀ c ∈ v, c = SP ∨ isNum c = true
  number : Numerals.number 10 (v.filterMap decimalDigit) = m
  bound : m ≤ 18446744073709551609

structure IsSize (s : Bytes) (m : ℕ) : Prop where
  nonempty : s ≠ []
  digits : ∀ c ∈ s, unhex c ≠ none
  number : Numerals.number 16 (s.filterMap hexDigit) = m
  bound : m ≤ 18446744073709551599

theorem decimalDigit_lt (c : UInt8) (d : ℕ) (hd : decimalDigit c = some d) : d < 10 := by
  unfold decimalDigit at hd
  split at hd
  · next hnum =>
    obtain rfl := Option.some.inj hd
    simp only [isNum, Bool.and_eq_true, decide_eq_true_eq, UInt8.le_iff_toNat_le] at hnum
    rw [UInt8.toNat_sub_of_le _ _ (UInt8.le_iff_toNat_le.mpr hnum.1)]
    have hzero : (0x30 : UInt8).toNat = 48 := rfl
    have hnine : (0x39 : UInt8).toNat = 57 := rfl
    omega
  · cases hd

theorem hexDigit_lt (c : UInt8) (d : ℕ) (hd : hexDigit c = some d) : d < 16 := by
  obtain ⟨v, hv, rfl⟩ := Option.map_eq_some_iff.mp hd
  exact unhex_lt hv

theorem lengthStep_toNat (n : UInt64) (c : UInt8) : (lengthStep n c).map UInt64.toNat =
    Numerals.step 10 (18446744073709551609 / 10) (· = SP) decimalDigit n.toNat c := by
  have hlimit : (ULLONG_MAX - 10) / 10 < n ↔ 18446744073709551609 / 10 < n.toNat := by
    rw [UInt64.lt_iff_toNat_lt]
    rfl
  unfold lengthStep Numerals.step decimalDigit
  by_cases hsp : c = SP
  · simp [hsp]
  · cases hnum : isNum c with
    | false => simp [hsp]
    | true =>
      have hd := decimalDigit_lt c _ (by rw [decimalDigit, if_pos hnum])
      by_cases hlt : 18446744073709551609 / 10 < n.toNat
      · simp [hsp, hlimit.mpr hlt, hlt]
      · have hnot := mt hlimit.mp hlt
        have hsum : (n * 10 + (c - 0x30).toUInt64).toNat = n.toNat * 10 + (c - 0x30).toNat := by
          have hten : (10 : UInt64).toNat = 10 := rfl
          rw [UInt64.toNat_add, UInt64.toNat_mul, UInt8.toNat_toUInt64, hten]
          omega
        simp only [hsp, hnot, hlt, if_false, if_true, Bool.not_true, Bool.false_eq_true,
          decide_false, Option.bind_some, Option.map_some, hsum]

theorem sizeStep_toNat (n : UInt64) (c : UInt8) : (sizeStep n c).map UInt64.toNat =
    Numerals.step 16 (18446744073709551599 / 16) (fun _ => false) hexDigit n.toNat c := by
  have hlimit : (ULLONG_MAX - 16) / 16 < n ↔ 18446744073709551599 / 16 < n.toNat := by
    rw [UInt64.lt_iff_toNat_lt]
    rfl
  unfold sizeStep Numerals.step hexDigit
  cases hv : unhex c with
  | none => simp
  | some v =>
    have hd := unhex_lt hv
    by_cases hlt : 18446744073709551599 / 16 < n.toNat
    · simp [hlimit.mpr hlt, hlt]
    · have hnot := mt hlimit.mp hlt
      have hsum : (n * 16 + v.toUInt64).toNat = n.toNat * 16 + v.toNat := by
        have hsixteen : (16 : UInt64).toNat = 16 := rfl
        rw [UInt64.toNat_add, UInt64.toNat_mul, UInt8.toNat_toUInt64, hsixteen]
        omega
      simp only [hnot, hlt, if_false, Bool.false_eq_true, Option.bind_some, Option.map_some, hsum]

theorem readLength_eq (x : UInt8) (r : Bytes) (hnum : isNum x = true) :
    readLength (x :: r) = (x :: r).foldlM lengthStep 0 := by
  have hsp : x ≠ SP := by
    rintro rfl
    cases hnum
  have hfirst : lengthStep 0 x = some (x - 0x30).toUInt64 := by
    unfold lengthStep
    rw [if_neg hsp, hnum, if_neg (by simp), if_neg (by decide)]
    simp
  rw [readLength, if_pos hnum, List.foldlM_cons, hfirst]
  rfl

theorem readLength_iff : (readLength v).map UInt64.toNat = some m ↔ IsLength v m := by
  have hdiv : m / 10 ≤ 18446744073709551609 / 10 ↔ m ≤ 18446744073709551609 := by omega
  have hread := Numerals.foldlM_step 10 (18446744073709551609 / 10) (fun c => c = SP) decimalDigit
    (fun c hc => by rw [of_decide_eq_true hc]; rfl) decimalDigit_lt v m
  cases v with
  | nil =>
    refine ⟨fun h => (by cases h), fun h => ?_⟩
    obtain ⟨c, hc, -⟩ := h.first
    cases hc
  | cons x r =>
    cases hnum : isNum x with
    | false =>
      constructor
      · intro h
        rw [readLength, hnum] at h
        cases h
      · intro h
        obtain ⟨c, hc, hdigit⟩ := h.first
        obtain rfl := Option.some.inj hc
        rw [hnum] at hdigit
        cases hdigit
    | true =>
      rw [readLength_eq x r hnum, Numerals.foldlM_map UInt64.toNat lengthStep_toNat]
      refine hread.trans ?_
      rw [hdiv]
      constructor
      · rintro ⟨hall, hnumber, hbound⟩
        refine ⟨⟨x, rfl, hnum⟩, fun c hc => ?_, hnumber, hbound⟩
        simpa [decimalDigit] using hall c hc
      · intro h
        refine ⟨fun c hc => ?_, h.number, h.bound⟩
        simpa [decimalDigit] using h.digits c hc

theorem readSize_iff : (readSize v).map UInt64.toNat = some m ↔ IsSize v m := by
  have hdiv : m / 16 ≤ 18446744073709551599 / 16 ↔ m ≤ 18446744073709551599 := by omega
  have hread := Numerals.foldlM_step 16 (18446744073709551599 / 16) (fun _ => false) hexDigit
    (fun c hc => by cases hc) hexDigit_lt v m
  cases v with
  | nil => exact ⟨fun h => (by cases h), fun h => absurd rfl h.nonempty⟩
  | cons x r =>
    have heq : readSize (x :: r) = (x :: r).foldlM sizeStep 0 := by
      rw [readSize, List.foldlM_cons, sizeStep]
      cases unhex x with
      | none => rfl
      | some d =>
        have hzero : (0 : UInt64) * 16 + d.toUInt64 = d.toUInt64 := by simp
        show _ = (if (ULLONG_MAX - 16) / 16 < (0 : UInt64) then none
          else some ((0 : UInt64) * 16 + d.toUInt64)) >>= _
        rw [if_neg (by decide), hzero]
        rfl
    rw [heq, Numerals.foldlM_map UInt64.toNat sizeStep_toNat]
    refine hread.trans ?_
    rw [hdiv]
    constructor
    · rintro ⟨hall, hnumber, hbound⟩
      exact ⟨List.cons_ne_nil x r, fun c hc => by simpa [hexDigit] using hall c hc, hnumber, hbound⟩
    · intro h
      exact ⟨fun c hc => by simpa [hexDigit] using h.digits c hc, h.number, h.bound⟩

/-! ## What is refused -/

def Refuses (k : HttpParser) (l : Bytes) : Prop :=
  (machine.trace k l).ending = .error ∧
    (machine.trace k l).state.httpErrno = .invalidContentLength

theorem Refuses.behind {l l' : Bytes} {a b : Slices.Piece Mark UInt8} {out : List Report}
    (h : Refuses j l') (scan : Scans machine k a l j b out) : Refuses k (l ++ l') := by
  obtain ⟨hending, hstate⟩ := scan.trace
  unfold Refuses
  rw [Slices.Machine.trace_append, hending]
  dsimp only
  rw [hstate]
  exact h

theorem Refuses.append {l : Bytes} (h : Refuses k l) (post : Bytes) : Refuses k (l ++ post) := by
  unfold Refuses
  rw [Slices.Machine.trace_append, h.1]
  exact h

theorem refuses_single {acts : List (Slices.Act Mark Note)} (step : k.step x 1 = ⟨j, acts, .error⟩)
    (errno : j.httpErrno = .invalidContentLength) : Refuses k [x] := by
  have hstep : machine.step k x 1 = ⟨j, acts, .error⟩ := step
  unfold Refuses
  rw [Slices.Machine.trace, hstep]
  exact ⟨rfl, errno⟩

theorem refuses_contentLength (hk : k.state = .headerValue)
    (hlength : k.headerState = .contentLength)
    (room : k.nread + v.length < HTTP_MAX_HEADER_SIZE) (breaks : CR ∉ v ∧ LF ∉ v)
    (hn : v.foldlM lengthStep k.contentLength = none) : Refuses k v := by
  induction v generalizing k with
  | nil => cases hn
  | cons x v ih =>
    have hlen : k.nread + (v.length + 1) < HTTP_MAX_HEADER_SIZE := room
    rw [List.mem_cons, not_or, List.mem_cons, not_or] at breaks
    cases hfirst : lengthStep k.contentLength x with
    | none =>
      have hstep : k.step x 1 =
          ⟨{ k with nread := k.nread + 1, httpErrno := .invalidContentLength }, [], .error⟩ := by
        rw [step_header (by rw [hk]; rfl) (by omega)]
        simp only [switch, hk, headerValue, if_neg (Ne.symm breaks.1.1),
          if_neg (Ne.symm breaks.2.1), hlength, contentLengthDigit]
        revert hfirst
        unfold lengthStep
        split_ifs <;> intro hfirst <;> first | rfl | cases hfirst
      exact (refuses_single hstep rfl).append v
    | some n =>
      have hstep := step_contentLength hk hlength (by omega) (Ne.symm breaks.1.1)
        (Ne.symm breaks.2.1) hfirst
      have hrest : v.foldlM lengthStep n = none := by
        rw [List.foldlM_cons, hfirst] at hn
        exact hn
      have hone : Scans machine k none [x] _ none [] := .quiet hstep (.nil _ none)
      have hlast : Refuses { k with nread := k.nread + 1, contentLength := n } v :=
        ih hk hlength (by dsimp only; omega) ⟨breaks.1.2, breaks.2.2⟩ hrest
      exact hlast.behind hone

theorem refuses_value {r : Bytes} (hk : k.state = .headerValueDiscardWs) (hsp : x ≠ SP)
    (hht : x ≠ HT) (breaks : CR ∉ x :: r ∧ LF ∉ x :: r)
    (room : k.nread + r.length + 1 < HTTP_MAX_HEADER_SIZE)
    (hlength : settle k.headerState = .contentLength) (hn : readLength (x :: r) = none) :
    Refuses k (x :: r) := by
  rw [List.mem_cons, not_or, List.mem_cons, not_or] at breaks
  have hs : k.headerState = .contentLength := by
    revert hlength
    cases k.headerState <;> decide
  cases hnum : isNum x with
  | false =>
    have hblank : ¬ (x = SP ∨ x = HT) := by simp [hsp, hht]
    have hstep : k.step x 1 =
        ⟨{ k with
            nread := k.nread + 1
            state := .headerValue
            index := 0
            httpErrno := .invalidContentLength }, [.mark .headerValue], .error⟩ := by
      rw [step_header (by rw [hk]; rfl) (by omega)]
      simp only [switch, hk, headerValueDiscardWs, if_neg hblank, if_neg (Ne.symm breaks.1.1),
        if_neg (Ne.symm breaks.2.1), headerValueStart, hs, hnum, Bool.not_false, if_true]
      rfl
    exact (refuses_single hstep rfl).append r
  | true =>
    have hfirst : Scans machine k none [x] _ (some (.headerValue, [x])) [] :=
      .opens (step_lengthBegin hk (by omega) hnum hlength) rfl
    have hlast : Refuses { k with
        nread := k.nread + 1
        state := .headerValue
        index := 0
        contentLength := (x - 0x30).toUInt64 } r := by
      rw [readLength, if_pos hnum] at hn
      exact refuses_contentLength rfl hs (by dsimp only; omega) ⟨breaks.1.2, breaks.2.2⟩ hn
    exact hlast.behind hfirst

theorem meaning_none_iff {h : HeaderState} :
    meaning h v f n = none ↔ h = .contentLength ∧ v ≠ [] ∧ readLength v = none := by
  fun_cases meaning h v f n <;> simp_all

theorem refuses_header {d : Header} (legal : d.Legal) (start : k.lineStart)
    (room : k.nread + d.text.length ≤ HTTP_MAX_HEADER_SIZE)
    (hm : meaning (kind d.name) d.value k.lineFlags k.contentLength = none) : Refuses k d.text := by
  obtain ⟨name, blank, value⟩ := d
  obtain ⟨hname, htokens, hblank, hfirst, hbreaks⟩ := legal
  obtain ⟨y, w, rfl⟩ := List.exists_cons_of_ne_nil hname
  dsimp only at htokens hblank hfirst hbreaks hm
  obtain ⟨hkind, hne, hread⟩ := meaning_none_iff.mp hm
  obtain ⟨z, r, rfl⟩ := List.exists_cons_of_ne_nil hne
  obtain ⟨hsp, hht⟩ := hfirst z rfl
  simp only [Header.text, List.length_append, List.length_cons, List.length_nil] at room ⊢
  obtain ⟨i, hfield, hsettle, hi⟩ := scans_field start (by omega) htokens
  have hnread : i.nread = k.nread + w.length + 2 := by rw [hi]
  have histate : i.state = .headerValueDiscardWs := by rw [hi]
  have hws := scans_ws histate (by omega) hblank
  have hvalue : Refuses { i with nread := i.nread + blank.length } (z :: r) :=
    refuses_value histate hsp hht hbreaks (by dsimp only; omega) (hsettle.trans hkind) hread
  have hall := (hvalue.append [CR, LF]).behind (hfield.trans hws)
  have htext : (y :: w ++ [colon] ++ blank) ++ (z :: r ++ [CR, LF]) =
      y :: w ++ colon :: (blank ++ (z :: r ++ [CR, LF])) := by simp
  rwa [htext] at hall

theorem refuses_headers {hs : List Header} (legal : ∀ d ∈ hs, d.Legal) (start : k.lineStart)
    (room : k.nread + (hs.flatMap Header.text).length ≤ HTTP_MAX_HEADER_SIZE)
    (hm : meanings hs k.lineFlags k.contentLength = none) :
    Refuses k (hs.flatMap Header.text) := by
  induction hs generalizing k with
  | nil => cases hm
  | cons d hs ih =>
    obtain ⟨hd, hrest⟩ := List.forall_mem_cons.mp legal
    rw [List.flatMap_cons, List.length_append] at room
    rw [List.flatMap_cons]
    cases hfirst : meaning (kind d.name) d.value k.lineFlags k.contentLength with
    | none => exact (refuses_header hd start (by omega) hfirst).append _
    | some p =>
      obtain ⟨f', n'⟩ := p
      have hlast : meanings hs f' n' = none := by
        rw [meanings, List.foldlM_cons, hfirst] at hm
        exact hm
      obtain ⟨i, out, hscan, hi, -, hline⟩ := scans_header hd start (by omega) hfirst
      have hflags : i.lineFlags = f' := congrArg flags hline
      have hlength : i.contentLength = n' := congrArg contentLength hline
      have hnread : i.nread = k.nread + d.text.length := congrArg nread hline
      exact (ih hrest hi (by omega) (by rw [hflags, hlength]; exact hlast)).behind hscan

/-! ## Header blocks -/

def lengths (hs : List Header) : List Bytes :=
  (hs.filter fun d => kind d.name = .contentLength && d.value ≠ []).map Header.value

def blockFlags (hs : List Header) (f : Flags) : Flags :=
  { f with
    chunked := f.chunked ||
      hs.any fun d => kind d.name = .transferEncoding && Spaced CHUNKED d.value
    connectionKeepAlive := f.connectionKeepAlive ||
      hs.any fun d => kind d.name = .connection && Spaced KEEP_ALIVE d.value
    connectionClose := f.connectionClose ||
      hs.any fun d => kind d.name = .connection && Spaced CLOSE d.value
    upgrade := f.upgrade || hs.any fun d => kind d.name = .upgrade && d.value ≠ [] }

theorem keepAlive_not_close (v : Bytes) (hkeep : Spaced KEEP_ALIVE v = true) :
    Spaced CLOSE v = false := by
  cases v with
  | nil => rfl
  | cons x v =>
    have hkeep' : (lower x = 0x6b && Spaced (KEEP_ALIVE.drop 1) v) = true := hkeep
    show (lower x = 0x63 && Spaced (CLOSE.drop 1) v) = false
    rw [Bool.and_eq_true, decide_eq_true_eq] at hkeep'
    rw [hkeep'.1]
    rfl

theorem meaning_flags (d : Header) (hm : meaning (kind d.name) d.value f n = some (f', n')) :
    f' = blockFlags [d] f := by
  obtain ⟨name, blank, v⟩ := d
  dsimp only at hm
  have hclose := keepAlive_not_close v
  have hempty : Spaced CHUNKED [] = false ∧ Spaced KEEP_ALIVE [] = false ∧
      Spaced CLOSE [] = false := ⟨rfl, rfl, rfl⟩
  simp only [blockFlags, List.any_cons, List.any_nil, Bool.or_false]
  revert hm
  generalize kind name = h
  fun_cases meaning h v f n <;> intro hm
  case case9 _ _ _ hne _ =>
    obtain ⟨x, r, rfl⟩ := List.exists_cons_of_ne_nil hne
    simp_all
  all_goals simp_all

theorem blockFlags_append (hs started : List Header) (f : Flags) :
    blockFlags (hs ++ started) f = blockFlags started (blockFlags hs f) := by
  simp only [blockFlags, List.any_append, Bool.or_assoc]

theorem meanings_flags {hs : List Header} (hm : meanings hs f n = some (f', n')) :
    f' = blockFlags hs f := by
  induction hs generalizing f n with
  | nil =>
    cases hm
    simp [blockFlags]
  | cons d hs ih =>
    rw [meanings, List.foldlM_cons] at hm
    obtain ⟨⟨f₁, n₁⟩, hfirst, hrest⟩ := Option.bind_eq_some_iff.mp hm
    rw [ih hrest, meaning_flags d hfirst, ← blockFlags_append, List.singleton_append]

theorem lengths_cons (d : Header) (hs : List Header) : lengths (d :: hs) =
    if kind d.name = .contentLength ∧ d.value ≠ [] then d.value :: lengths hs else lengths hs := by
  unfold lengths
  by_cases h : kind d.name = .contentLength ∧ d.value ≠ []
  · rw [if_pos h, List.filter_cons_of_pos (by simpa using h), List.map_cons]
  · rw [if_neg h, List.filter_cons_of_neg (by simpa using h)]

theorem meaning_length {h : HeaderState} (hm : meaning h v f n = some (f', n')) :
    if h = .contentLength ∧ v ≠ [] then IsLength v n'.toNat else n' = n := by
  revert hm
  fun_cases meaning h v f n <;> intro hm
  case case8 hne =>
    obtain ⟨m, hread, heq⟩ := Option.map_eq_some_iff.mp hm
    obtain rfl : m = n' := congrArg Prod.snd heq
    rw [if_pos ⟨rfl, hne⟩]
    exact readLength_iff.mp (by rw [hread]; rfl)
  all_goals simp_all

theorem meanings_length {hs : List Header} (hm : meanings hs f n = some (f', n')) :
    (∀ v ∈ lengths hs, ∃ m : ℕ, IsLength v m) ∧
      match (lengths hs).getLast? with
      | none => n' = n
      | some v => IsLength v n'.toNat := by
  induction hs generalizing f n with
  | nil =>
    cases hm
    exact ⟨by simp [lengths], rfl⟩
  | cons d hs ih =>
    rw [meanings, List.foldlM_cons] at hm
    obtain ⟨⟨f₁, n₁⟩, hfirst, hrest⟩ := Option.bind_eq_some_iff.mp hm
    obtain ⟨hall, hlast⟩ := ih hrest
    have hlength := meaning_length hfirst
    rw [lengths_cons]
    split at hlength
    · next hd =>
      rw [if_pos hd, List.forall_mem_cons, List.getLast?_cons]
      refine ⟨⟨⟨_, hlength⟩, hall⟩, ?_⟩
      cases hl : (lengths hs).getLast? with
      | none =>
        rw [hl] at hlast
        rw [Option.getD_none, hlast]
        exact hlength
      | some v =>
        rw [hl] at hlast
        exact hlast
    · next hd =>
      rw [if_neg hd]
      rw [hlength] at hlast
      exact ⟨hall, hlast⟩

theorem meanings_none {hs : List Header} (hm : meanings hs f n = none) :
    ∃ v ∈ lengths hs, ∀ m : ℕ, ¬ IsLength v m := by
  induction hs generalizing f n with
  | nil => cases hm
  | cons d hs ih =>
    rw [lengths_cons]
    cases hfirst : meaning (kind d.name) d.value f n with
    | none =>
      obtain ⟨hkind, hne, hread⟩ := meaning_none_iff.mp hfirst
      rw [if_pos ⟨hkind, hne⟩]
      refine ⟨d.value, List.mem_cons_self, fun m h => ?_⟩
      have hsome := readLength_iff.mpr h
      rw [hread] at hsome
      cases hsome
    | some p =>
      rw [meanings, List.foldlM_cons, hfirst] at hm
      obtain ⟨v, hv, hnot⟩ := ih hm
      refine ⟨v, ?_, hnot⟩
      split
      · exact List.mem_cons_of_mem _ hv
      · exact hv

/-- A message up to the end of its header block, over any cut: it is accepted when each content
length is one, and then the last one counts and the flags are those of the headers. -/
theorem head_exact {t : ParserType} (ht : t ≠ .both) {start : Start} {major minor : ℕ}
    {hs : List Header} (side : start.type = t) (legal : start.Legal major)
    (version : major ≤ 999 ∧ minor ≤ 999) (headers : ∀ d ∈ hs, d.Legal)
    (room : (start.text major minor).length + (hs.flatMap Header.text).length ≤
      HTTP_MAX_HEADER_SIZE)
    {reads : List Bytes} (flatten : reads.flatten = start.text major minor ++ hs.flatMap Header.text)
    (nonempty : ∀ r ∈ reads, r ≠ []) :
    ((∀ v ∈ lengths hs, ∃ m : ℕ, IsLength v m) →
      ((init t).executeAll reads).ending = .next ∧
        ((init t).executeAll reads).state.lineFlags = blockFlags hs {} ∧
        match (lengths hs).getLast? with
        | none => ((init t).executeAll reads).state.contentLength = ULLONG_MAX
        | some v => IsLength v ((init t).executeAll reads).state.contentLength.toNat) ∧
    ((∃ v ∈ lengths hs, ∀ m : ℕ, ¬ IsLength v m) →
      ((init t).executeAll reads).ending = .error ∧
        ((init t).executeAll reads).state.httpErrno = .invalidContentLength) := by
  let d : Text := ⟨start, major, minor, hs, .empty⟩
  have hfirst : (start.text major minor).length ≤ HTTP_MAX_HEADER_SIZE := by omega
  obtain ⟨s, started, hstart⟩ := scans_start (d := d) (idle_init ht) legal version
    (by rw [(idle_init ht).nread, Nat.zero_add]; exact hfirst) side
  have hline : s.lineStart := Or.inl started.state
  have hflags : s.lineFlags = {} := by
    rw [lineFlags, if_neg (by rw [started.state]; decide), started.flags]
  have hroom : s.nread + (hs.flatMap Header.text).length ≤ HTTP_MAX_HEADER_SIZE := by
    rw [started.nread, (idle_init ht).nread]
    exact (Nat.zero_add _).symm ▸ room
  rw [(fits_init t).executeAll_eq nonempty]
  obtain ⟨hstate, -, hending, -⟩ := lawful.feed_trace (s := init t) bulk nonempty
  rw [flatten] at hstate hending
  rw [hstate, hending]
  cases hm : meanings hs {} ULLONG_MAX with
  | none =>
    have hrefuses : Refuses (init t) (start.text major minor ++ hs.flatMap Header.text) :=
      Refuses.behind (refuses_headers headers hline hroom
        (by rw [hflags, started.contentLength]; exact hm)) hstart
    obtain ⟨v, hv, hnot⟩ := meanings_none hm
    refine ⟨fun hall => ?_, fun _ => hrefuses⟩
    obtain ⟨m, hm'⟩ := hall v hv
    exact absurd hm' (hnot m)
  | some p =>
    obtain ⟨f, n⟩ := p
    obtain ⟨j, out, hscan, -, -, hlast⟩ := scans_headers headers hline hroom
      (by rw [hflags, started.contentLength]; exact hm)
    obtain ⟨hnext, hj⟩ := (hstart.trans hscan).trace
    obtain ⟨hall, hlength⟩ := meanings_length hm
    refine ⟨fun _ => ?_, ?_⟩
    · have hjflags : j.lineFlags = f := congrArg flags hlast
      have hjlength : j.contentLength = n := congrArg contentLength hlast
      have hnext' : (machine.trace (init t)
          (start.text major minor ++ hs.flatMap Header.text)).ending = .next := hnext
      have hj' : (machine.trace (init t)
          (start.text major minor ++ hs.flatMap Header.text)).state = j := hj
      rw [hnext', hj', hjflags, hjlength]
      exact ⟨rfl, meanings_flags hm, hlength⟩
    · rintro ⟨v, hv, hnot⟩
      obtain ⟨m, hm'⟩ := hall v hv
      exact absurd hm' (hnot m)

def longLength : Header := ⟨ascii "Content-Length", [SP], ascii "18446744073709551610"⟩

theorem head_exact_long : ((init .request).executeAll
    [(Start.request .get (ascii "/")).text 1 1, longLength.text]).ending = .error := by
  have hlegal : (Start.request .get (ascii "/")).Legal 1 :=
    ⟨by decide, ⟨by decide, by decide⟩, by decide⟩
  have hheaders : ∀ d ∈ [longLength], d.Legal := by decide
  have hflatten : [(Start.request .get (ascii "/")).text 1 1, longLength.text].flatten =
      (Start.request .get (ascii "/")).text 1 1 ++ [longLength].flatMap Header.text := by simp
  have hlong (m : ℕ) : ¬ IsLength longLength.value m := by
    intro h
    have hread := readLength_iff.mpr h
    rw [show readLength longLength.value = none from by decide] at hread
    cases hread
  have hlengths : lengths [longLength] = [longLength.value] := by decide
  refine ((head_exact (by decide) rfl hlegal (by decide) hheaders (by decide) hflatten
    (by decide)).2 ?_).1
  rw [hlengths]
  exact ⟨_, List.mem_singleton_self _, hlong⟩

/-! ## Chunk sizes -/

theorem refuses_size {s : Bytes} (hk : k.state = .chunkSize) (hchunked : k.flags.chunked = true)
    (room : k.nread + s.length < HTTP_MAX_HEADER_SIZE) (digits : ∀ c ∈ s, unhex c ≠ none)
    (hn : s.foldlM sizeStep k.contentLength = none) : Refuses k s := by
  induction s generalizing k with
  | nil => cases hn
  | cons x s ih =>
    have hlength : k.nread + (s.length + 1) < HTTP_MAX_HEADER_SIZE := room
    obtain ⟨hx, hs⟩ := List.forall_mem_cons.mp digits
    obtain ⟨v, hv⟩ := Option.ne_none_iff_exists'.mp hx
    have hcr : x ≠ CR := fun h => by rw [h] at hv; cases hv
    by_cases hlimit : (ULLONG_MAX - 16) / 16 < k.contentLength
    · have hstep : k.step x 1 =
          ⟨{ k with nread := k.nread + 1, httpErrno := .invalidContentLength }, [], .error⟩ := by
        rw [step_header (by rw [hk]; rfl) (by omega)]
        simp only [switch, hk, chunkSize, hchunked, Bool.not_true, Bool.false_eq_true, if_false,
          if_neg hcr, hv, if_pos hlimit]
        rfl
      exact (refuses_single hstep rfl).append s
    · have hone := scans_size (s := [x]) hk hchunked (by simp only [List.length_singleton]; omega)
        (by rw [List.foldlM_cons, sizeStep, hv, Option.bind_some, if_neg hlimit]; rfl)
      have hrest : s.foldlM sizeStep (k.contentLength * 16 + v.toUInt64) = none := by
        rw [List.foldlM_cons, sizeStep, hv, Option.bind_some, if_neg hlimit] at hn
        exact hn
      have hlast : Refuses { k with
          nread := k.nread + 1
          contentLength := k.contentLength * 16 + v.toUInt64 } s :=
        ih hk hchunked (by dsimp only; omega) hs hrest
      exact hlast.behind hone

theorem size_exact {s b : Bytes} (hk : k.state = .chunkSizeStart) (hnread : k.nread = 0)
    (hchunked : k.flags.chunked = true) (hne : s ≠ []) (digits : ∀ c ∈ s, unhex c ≠ none)
    (hb : Parameters b) (room : (s ++ (b ++ [CR, LF])).length ≤ HTTP_MAX_HEADER_SIZE)
    {reads : List Bytes} (flatten : reads.flatten = s ++ (b ++ [CR, LF]))
    (nonempty : ∀ r ∈ reads, r ≠ []) :
    if Numerals.number 16 (s.filterMap hexDigit) ≤ 18446744073709551599 then
      (machine.feed k reads).ending = .next ∧
        (machine.feed k reads).state.contentLength.toNat =
          Numerals.number 16 (s.filterMap hexDigit) ∧
        (machine.feed k reads).state.state =
          if Numerals.number 16 (s.filterMap hexDigit) = 0 then .headerFieldStart else .chunkData
    else (machine.feed k reads).ending = .error ∧
      (machine.feed k reads).state.httpErrno = .invalidContentLength := by
  obtain ⟨hstate, -, hending, -⟩ := lawful.feed_trace (s := k) bulk nonempty
  rw [flatten] at hstate hending
  rw [hstate, hending]
  split
  · next hbound =>
    obtain ⟨n, hn, hnumber⟩ := Option.map_eq_some_iff.mp
      (readSize_iff.mpr ⟨hne, digits, rfl, hbound⟩)
    obtain ⟨hnext, hj⟩ := (scans_chunkHead hk hnread hchunked hn hb room).trace
    rw [hnext, hj]
    have hzero : n = 0 ↔ Numerals.number 16 (s.filterMap hexDigit) = 0 := by
      rw [← hnumber, ← UInt64.toNat_inj]
      rfl
    by_cases hn0 : n = 0
    · rw [if_pos hn0, if_pos (hzero.mp hn0)]
      exact ⟨rfl, hnumber, rfl⟩
    · rw [if_neg hn0, if_neg (mt hzero.mpr hn0)]
      exact ⟨rfl, hnumber, rfl⟩
  · next hbound =>
    have hnone : readSize s = none := by
      cases hread : readSize s with
      | none => rfl
      | some n =>
        have hsize : IsSize s n.toNat := readSize_iff.mp (by rw [hread]; rfl)
        exact absurd hsize.bound (by rw [← hsize.number]; exact hbound)
    obtain ⟨x, r, rfl⟩ := List.exists_cons_of_ne_nil hne
    obtain ⟨hx, hr⟩ := List.forall_mem_cons.mp digits
    obtain ⟨v, hv⟩ := Option.ne_none_iff_exists'.mp hx
    simp only [List.length_append, List.length_cons, List.length_nil] at room
    have hstep : k.step x 1 =
        ⟨{ k with nread := 1, contentLength := v.toUInt64, state := .chunkSize }, [], .next⟩ := by
      rw [step_header (by rw [hk]; rfl) (by omega)]
      simp only [switch, hk, hnread, chunkSizeStart, hchunked, hv]
      rfl
    have hone : Scans machine k none [x] _ none [] := .quiet hstep (.nil _ none)
    have hrest : Refuses { k with
        nread := 1, contentLength := v.toUInt64, state := .chunkSize } r := by
      rw [readSize, hv, Option.bind_some] at hnone
      exact refuses_size rfl hchunked (by dsimp only; omega) hr hnone
    exact (hrest.append (b ++ [CR, LF])).behind hone

theorem size_exact_long : (machine.feed
    { init .response with state := .chunkSizeStart, flags := { chunked := true } }
      [ascii "ffffffffffffff", ascii "f0;", [CR, LF]]).ending = .error := by
  have hflatten : [ascii "ffffffffffffff", ascii "f0;", [CR, LF]].flatten =
      ascii "fffffffffffffff0" ++ (ascii ";" ++ [CR, LF]) := by decide
  have hdigits : ∀ c ∈ ascii "fffffffffffffff0", unhex c ≠ none := by
    intro c hc
    have hall : (ascii "fffffffffffffff0").all (fun c => (unhex c).isSome) = true := by decide
    exact Option.isSome_iff_ne_none.mp (List.all_eq_true.mp hall c hc)
  have hexact := size_exact (k := { init .response with
      state := .chunkSizeStart, flags := { chunked := true } }) rfl rfl rfl (by decide) hdigits
    (by decide) (by decide) hflatten (by decide)
  rw [if_neg (by decide)] at hexact
  exact hexact.1

end Hwnet.Http.HttpParser
