import Hwnet.HttpMakeHeader
import Hwnet.HttpParserLines

set_option autoImplicit false

/-!
# Start lines

The request line and the status line, with their numbers in decimal.
-/
namespace Hwnet.Http

open Numerals (decimal digitByte decimal_digit decimal_digits length_decimal_pos)

/-! ## Decimal numbers -/

theorem digitByte_isNum {d : ℕ} (hd : d < 10) : isNum (digitByte d) = true := by
  revert d
  decide

theorem digitByte_sub {d : ℕ} (hd : d < 10) : (digitByte d - 0x30).toNat = d := by
  revert d
  decide

theorem digitByte_range {d : ℕ} (hd : d < 10) :
    ¬ (digitByte d < 0x30 ∨ 0x39 < digitByte d) ∧
      (d ≠ 0 → ¬ (digitByte d < 0x31 ∨ 0x39 < digitByte d)) ∧ digitByte d ≠ 0x2e := by
  revert d
  decide

namespace HttpParser

open Slices (Scans)

variable {k : HttpParser}

theorem digit_ofNat {n d : ℕ} (hd : d < 10) :
    digit (UInt16.ofNat n) (digitByte d) = UInt16.ofNat (n * 10 + d) := by
  have hsub : (digitByte d - 0x30).toUInt16.toNat = d := by
    rw [UInt8.toNat_toUInt16, digitByte_sub hd]
  apply UInt16.toNat_inj.mp
  rw [digit, UInt16.toNat_add, UInt16.toNat_mul, hsub]
  simp only [UInt16.toNat_ofNat']
  have h10 : (10 : UInt16).toNat = 10 := rfl
  rw [h10]
  omega

theorem digit_first {d : ℕ} (hd : d < 10) :
    (digitByte d - 0x30).toUInt16 = UInt16.ofNat d := by
  apply UInt16.toNat_inj.mp
  rw [UInt8.toNat_toUInt16, digitByte_sub hd, UInt16.toNat_ofNat']
  omega

theorem not_over {n : ℕ} (hn : n ≤ 999) : ¬ 999 < UInt16.ofNat n := by
  rw [UInt16.lt_iff_toNat_lt, UInt16.toNat_ofNat', show (999 : UInt16).toNat = 999 from rfl]
  omega

/-- A number that is read digit by digit: `reads i v` is the state with `i` digits read. -/
theorem scans_decimal {reads : ℕ → UInt16 → HttpParser} {n room : ℕ} (hn : n ≤ 999)
    (hroom : (decimal n).length ≤ room)
    (hfirst : ∀ d : ℕ, d < 10 → (n ≠ 0 → d ≠ 0) →
      k.step (digitByte d) 1 = ⟨reads 1 (UInt16.ofNat d), [], .next⟩)
    (hnext : ∀ (i : ℕ) (v : UInt16) (d : ℕ), d < 10 → i < room → ¬ 999 < digit v (digitByte d) →
      (reads i v).step (digitByte d) 1 = ⟨reads (i + 1) (digit v (digitByte d)), [], .next⟩) :
    Scans machine k none (decimal n) (reads (decimal n).length (UInt16.ofNat n)) none [] := by
  induction n using Nat.strongRecOn with
  | ind n ih =>
    by_cases hlt : n < 10
    · rw [decimal_digit hlt]
      exact .quiet (hfirst n hlt fun h => h) (.nil _ none)
    · have hge : 10 ≤ n := by omega
      rw [decimal_digits hge, List.length_append, List.length_singleton] at hroom ⊢
      have hdigit := digit_ofNat (n := n / 10) (Nat.mod_lt n (by decide : 0 < 10))
      rw [show n / 10 * 10 + n % 10 = n from by omega] at hdigit
      have hrest := ih (n / 10) (by omega) (by omega) (by omega) fun d hd hd0 =>
        hfirst d hd fun _ => hd0 (by omega)
      have hstep := hnext (decimal (n / 10)).length (UInt16.ofNat (n / 10)) (n % 10)
        (Nat.mod_lt n (by decide)) (by omega) (by rw [hdigit]; exact not_over hn)
      rw [hdigit] at hstep
      exact hrest.trans (.quiet hstep (.nil _ none))

/-! ## Targets -/

def urlStart (m : HttpMethod) : State :=
  if m = .connect then .reqServerStart else .reqSpacesBeforeUrl

def inUrl : State → Bool
  | .reqSchema | .reqSchemaSlash | .reqSchemaSlashSlash | .reqServerStart | .reqServer
  | .reqServerWithAt | .reqPath | .reqQueryStringStart | .reqQueryString | .reqFragmentStart
  | .reqFragment => true
  | _ => false

def urlEnd : State → Bool
  | .reqServer | .reqServerWithAt | .reqPath | .reqQueryStringStart | .reqQueryString
  | .reqFragmentStart | .reqFragment => true
  | _ => false

/-- The targets that a request of a method may have. -/
def Target (m : HttpMethod) (u : Bytes) : Prop :=
  u ≠ [] ∧ urlEnd (u.foldl parseUrlChar (urlStart m)) = true

theorem parseUrlChar_dead (c : UInt8) : parseUrlChar .dead c = .dead := by
  unfold parseUrlChar
  split
  · rfl
  · split <;> rfl

theorem foldl_dead (u : Bytes) : u.foldl parseUrlChar .dead = .dead := by
  induction u with
  | nil => rfl
  | cons c u ih => rw [List.foldl_cons, parseUrlChar_dead, ih]

theorem parseUrlChar_inUrl {s : State} {c : UInt8} (h : parseUrlChar s c ≠ .dead) :
    inUrl (parseUrlChar s c) = true ∧ ¬ (c = SP ∨ c = CR ∨ c = LF) := by
  refine ⟨?_, fun hc => h (if_pos hc)⟩
  generalize hs : parseUrlChar s c = t at h ⊢
  revert h
  revert hs
  unfold parseUrlChar parseUrlChar.server
  repeat' split
  all_goals
    rintro rfl h
    first | rfl | exact absurd rfl h

theorem step_url {c : UInt8} (hk : inUrl k.state = true) (room : k.nread < HTTP_MAX_HEADER_SIZE)
    (hc : parseUrlChar k.state c ≠ .dead) :
    k.step c 1 =
      ⟨{ k with nread := k.nread + 1, state := parseUrlChar k.state c }, [], .next⟩ := by
  obtain ⟨-, hbreak⟩ := parseUrlChar_inUrl hc
  have hsp : c ≠ SP := fun h => hbreak (Or.inl h)
  have hcrlf : ¬ (c = CR ∨ c = LF) := fun h => hbreak (Or.inr h)
  have hheader : k.state.parsingHeader = true := by
    revert hk
    cases k.state <;> decide
  rw [step_header hheader room]
  cases hs : k.state <;> rw [hs] at hk hc <;>
    first
    | exact absurd hk (by decide)
    | simp only [switch, reqSchema, reqUrl, urlChar, if_neg hbreak, if_neg hsp, if_neg hcrlf,
        if_neg hc, goes]

theorem scans_url {u : Bytes} (hk : inUrl k.state = true)
    (room : k.nread + u.length < HTTP_MAX_HEADER_SIZE)
    (alive : u.foldl parseUrlChar k.state ≠ .dead) (l : Bytes) :
    Scans machine k (some (.url, l)) u
      { k with nread := k.nread + u.length, state := u.foldl parseUrlChar k.state }
      (some (.url, l ++ u)) [] := by
  induction u generalizing k l with
  | nil =>
    rw [List.append_nil]
    exact .nil k _
  | cons c u ih =>
    have hlength : k.nread + (u.length + 1) < HTTP_MAX_HEADER_SIZE := room
    have hc : parseUrlChar k.state c ≠ .dead := by
      intro hdead
      rw [List.foldl_cons, hdead, foldl_dead] at alive
      exact alive rfl
    have hlast := ih (k := { k with nread := k.nread + 1, state := parseUrlChar k.state c })
      (parseUrlChar_inUrl hc).1 (by dsimp only; omega) alive (l ++ [c])
    rw [List.append_assoc, List.singleton_append] at hlast
    rw [List.length_cons, ← Nat.add_assoc, Nat.add_right_comm]
    exact .quiet (step_url hk (by omega) hc) hlast

theorem scans_target {u : Bytes} (hk : k.state = .reqSpacesBeforeUrl)
    (room : k.nread + u.length < HTTP_MAX_HEADER_SIZE) (target : Target k.method u) :
    Scans machine k none (u ++ [SP])
      { k with nread := k.nread + u.length + 1, state := .reqHttpStart } none
      [.data .url u] := by
  obtain ⟨hne, hend⟩ := target
  obtain ⟨c, w, rfl⟩ := List.exists_cons_of_ne_nil hne
  rw [List.foldl_cons] at hend
  rw [List.length_cons] at room ⊢
  have hc : parseUrlChar (urlStart k.method) c ≠ .dead := by
    intro hdead
    rw [hdead, foldl_dead] at hend
    cases hend
  have hsp : c ≠ SP := fun h => (parseUrlChar_inUrl hc).2 (Or.inl h)
  have hfirst : k.step c 1 =
      ⟨{ k with nread := k.nread + 1, state := parseUrlChar (urlStart k.method) c },
        [.mark .url], .next⟩ := by
    rw [step_header (by rw [hk]; rfl) (by omega)]
    simp only [switch, hk, reqSpacesBeforeUrl, if_neg hsp]
    unfold urlStart at hc ⊢
    split
    · next hm =>
      simp only [hm, if_true] at hc
      simp only [urlChar, if_neg hc, goes]
    · next hm =>
      simp only [hm, if_false] at hc
      simp only [urlChar, if_neg hc, goes]
  have hrest := scans_url (k := { k with
      nread := k.nread + 1, state := parseUrlChar (urlStart k.method) c }) (u := w)
    (parseUrlChar_inUrl hc).1 (by dsimp only; omega)
    (fun hdead => by rw [hdead] at hend; cases hend) [c]
  have hlast (j : HttpParser) (hj : urlEnd j.state = true)
      (hroom : j.nread < HTTP_MAX_HEADER_SIZE) :
      j.step SP 1 =
        ⟨{ j with nread := j.nread + 1, state := .reqHttpStart }, [.flush .url], .next⟩ := by
    have hheader : j.state.parsingHeader = true := by
      revert hj
      cases j.state <;> decide
    rw [step_header hheader hroom]
    cases hs : j.state <;> rw [hs] at hj <;>
      first
      | exact absurd hj (by decide)
      | (simp only [switch]; rfl)
  have hspace : Scans machine { k with
      nread := k.nread + 1 + w.length
      state := w.foldl parseUrlChar (parseUrlChar (urlStart k.method) c) }
      (some (.url, c :: w)) [SP] _ none [.data .url (c :: w)] :=
    .closed (hlast _ hend (by dsimp only; omega)) (by simp [Slices.Piece.perform, Slices.Piece.act])
  have hbegin : Scans machine k none [c] _ (some (.url, [c])) [] := .opens hfirst rfl
  have hall := hbegin.trans (hrest.trans hspace)
  rw [show k.nread + (w.length + 1) + 1 = k.nread + 1 + w.length + 1 from by omega]
  exact hall

/-! ## Versions -/

/-- A byte at which nothing is marked, in one of the states of a start line. -/
theorem scans_byte {c : UInt8} {j : HttpParser} (hk : k.state.parsingHeader = true)
    (room : k.nread < HTTP_MAX_HEADER_SIZE)
    (hc : { k with nread := k.nread + 1 }.switch c 1 = ⟨j, [], .next⟩) :
    Scans machine k none [c] j none [] :=
  .quiet ((step_header hk room c 1).trans hc) (.nil j none)

theorem scans_major {s t u : State} {low : UInt8} {n : ℕ} (hn : n ≤ 999)
    (hlow : low = 0x30 ∨ low = 0x31 ∧ n ≠ 0)
    (header : s.parsingHeader = true ∧ t.parsingHeader = true)
    (first : ∀ (j : HttpParser) (c : UInt8), j.state = s →
      j.switch c 1 = j.firstHttpMajor c low t)
    (next : ∀ (j : HttpParser) (c : UInt8), j.state = t → j.switch c 1 = j.httpMajorDigit c u)
    (hk : k.state = s) (room : k.nread + (decimal n).length < HTTP_MAX_HEADER_SIZE) :
    Scans machine k none (decimal n ++ [dot])
      { k with
        nread := k.nread + (decimal n).length + 1
        state := u
        httpMajor := UInt16.ofNat n } none [] := by
  let reads (i : ℕ) (v : UInt16) : HttpParser :=
    { k with nread := k.nread + i, state := t, httpMajor := v }
  have hnumber : Scans machine k none (decimal n) (reads (decimal n).length (UInt16.ofNat n)) none
      [] := by
    refine scans_decimal hn (Nat.le_refl _) (fun d hd hd0 => ?_) fun i v d hd hi hv => ?_
    · have hrange : ¬ (digitByte d < low ∨ 0x39 < digitByte d) := by
        rcases hlow with rfl | ⟨rfl, hne⟩
        · exact (digitByte_range hd).1
        · exact (digitByte_range hd).2.1 (hd0 hne)
      rw [step_header (by rw [hk]; exact header.1) (by omega),
        first { k with nread := k.nread + 1 } _ hk]
      simp only [firstHttpMajor, if_neg hrange, digit_first hd]
      rfl
    · have hdot : digitByte d ≠ 0x2e := (digitByte_range hd).2.2
      rw [step_header header.2 (by simp only [reads]; omega), next _ _ rfl]
      simp only [httpMajorDigit, if_neg hdot, digitByte_isNum hd, Bool.not_true,
        Bool.false_eq_true, if_false, reads, if_neg hv]
      rfl
  have hdot : (reads (decimal n).length (UInt16.ofNat n)).step dot 1 =
      ⟨{ k with
          nread := k.nread + (decimal n).length + 1
          state := u
          httpMajor := UInt16.ofNat n }, [], .next⟩ := by
    rw [step_header header.2 (by simp only [reads]; omega), next _ _ rfl]
    rfl
  exact hnumber.trans (.quiet hdot (.nil _ none))

theorem scans_minor {s t : State} {n : ℕ} (hn : n ≤ 999)
    (header : s.parsingHeader = true ∧ t.parsingHeader = true)
    (first : ∀ (j : HttpParser) (c : UInt8), j.state = s → j.switch c 1 = j.firstHttpMinor c t)
    (next : ∀ (j : HttpParser) (c : UInt8), j.state = t → isNum c = true →
      j.switch c 1 = j.httpMinorDigit c)
    (hk : k.state = s) (room : k.nread + (decimal n).length ≤ HTTP_MAX_HEADER_SIZE) :
    Scans machine k none (decimal n)
      { k with
        nread := k.nread + (decimal n).length
        state := t
        httpMinor := UInt16.ofNat n } none [] := by
  let reads (i : ℕ) (v : UInt16) : HttpParser :=
    { k with nread := k.nread + i, state := t, httpMinor := v }
  have hpos := length_decimal_pos n
  refine @scans_decimal k reads n _ hn (Nat.le_refl _) (fun d hd _ => ?_)
    fun i v d hd hi hv => ?_
  · rw [step_header (by rw [hk]; exact header.1) (by omega),
      first { k with nread := k.nread + 1 } _ hk]
    simp only [firstHttpMinor, digitByte_isNum hd, Bool.not_true, Bool.false_eq_true, if_false,
      digit_first hd]
    rfl
  · rw [step_header header.2 (by simp only [reads]; omega), next _ _ rfl (digitByte_isNum hd)]
    simp only [httpMinorDigit, digitByte_isNum hd, Bool.not_true, Bool.false_eq_true, if_false,
      reads, if_neg hv]
    rfl

theorem scans_reqVersion {major minor : ℕ} (hmajor : 1 ≤ major ∧ major ≤ 999)
    (hminor : minor ≤ 999) (hk : k.state = .reqHttpStart)
    (room : k.nread + (decimal major).length + (decimal minor).length + 8 ≤
      HTTP_MAX_HEADER_SIZE) :
    Scans machine k none
      (ascii "HTTP/" ++ ((decimal major ++ [dot]) ++ (decimal minor ++ [CR, LF])))
      { k with
        nread := k.nread + (decimal major).length + (decimal minor).length + 8
        state := .headerFieldStart
        httpMajor := UInt16.ofNat major
        httpMinor := UInt16.ofNat minor } none [] := by
  have h1 := scans_byte (k := k) (c := 0x48)
    (j := { k with nread := k.nread + 1, state := .reqHttpH }) (by rw [hk]; rfl) (by omega)
    (by simp only [switch, hk]; rfl)
  have h2 := scans_byte (k := { k with nread := k.nread + 1, state := .reqHttpH }) (c := 0x54) rfl
    (by dsimp only; omega) rfl
  have h3 := scans_byte (k := { k with nread := k.nread + 2, state := .reqHttpHT }) (c := 0x54) rfl
    (by dsimp only; omega) rfl
  have h4 := scans_byte (k := { k with nread := k.nread + 3, state := .reqHttpHTT }) (c := 0x50) rfl
    (by dsimp only; omega) rfl
  have h5 := scans_byte (k := { k with nread := k.nread + 4, state := .reqHttpHTTP }) (c := 0x2f)
    rfl (by dsimp only; omega) rfl
  have h6 := scans_major (k := { k with nread := k.nread + 5, state := .reqFirstHttpMajor })
    (s := .reqFirstHttpMajor) (t := .reqHttpMajor) (u := .reqFirstHttpMinor) hmajor.2
    (Or.inr ⟨rfl, by omega⟩) ⟨rfl, rfl⟩ (fun j c hj => by simp only [switch, hj])
    (fun j c hj => by simp only [switch, hj]) rfl (by dsimp only; omega)
  have h7 := scans_minor (k := { k with
      nread := k.nread + 5 + (decimal major).length + 1
      state := .reqFirstHttpMinor
      httpMajor := UInt16.ofNat major }) (s := .reqFirstHttpMinor) (t := .reqHttpMinor) hminor
    ⟨rfl, rfl⟩ (fun j c hj => by simp only [switch, hj]) (fun j c hj hc => by
      have hcr : c ≠ CR := fun h => by rw [h] at hc; exact absurd hc (by decide)
      have hlf : c ≠ LF := fun h => by rw [h] at hc; exact absurd hc (by decide)
      simp only [switch, hj, reqHttpMinor, if_neg hcr, if_neg hlf]) rfl (by dsimp only; omega)
  have h8 := scans_byte (k := { k with
      nread := k.nread + 5 + (decimal major).length + 1 + (decimal minor).length
      state := .reqHttpMinor
      httpMajor := UInt16.ofNat major
      httpMinor := UInt16.ofNat minor }) (c := CR) rfl (by dsimp only; omega) rfl
  have h9 := scans_byte (k := { k with
      nread := k.nread + 5 + (decimal major).length + 1 + (decimal minor).length + 1
      state := .reqLineAlmostDone
      httpMajor := UInt16.ofNat major
      httpMinor := UInt16.ofNat minor }) (c := LF) rfl (by dsimp only; omega) rfl
  have hall := (h1.trans (h2.trans (h3.trans (h4.trans h5)))).trans
    (h6.trans (h7.trans (h8.trans h9)))
  rw [show k.nread + (decimal major).length + (decimal minor).length + 8 =
    k.nread + 5 + (decimal major).length + 1 + (decimal minor).length + 1 + 1 from by omega]
  exact hall

/-! ## The request line -/

def versionText (major minor : ℕ) : Bytes :=
  ascii "HTTP/" ++ (decimal major ++ dot :: decimal minor)

def requestLine (m : HttpMethod) (u : Bytes) (major minor : ℕ) : Bytes :=
  m.string ++ SP :: (u ++ SP :: (versionText major minor ++ [CR, LF]))

theorem length_requestLine (m : HttpMethod) (u : Bytes) (major minor : ℕ) :
    (requestLine m u major minor).length =
      m.string.length + u.length + (decimal major).length + (decimal minor).length + 10 := by
  simp only [requestLine, versionText, List.length_append, List.length_cons, List.length_nil,
    show (ascii "HTTP/").length = 5 from rfl]
  omega

theorem scans_requestLine (m : HttpMethod) {u : Bytes} {major minor : ℕ} (target : Target m u)
    (hmajor : 1 ≤ major ∧ major ≤ 999) (hminor : minor ≤ 999) (hk : k.state = .startReq)
    (room : k.nread + (requestLine m u major minor).length ≤ HTTP_MAX_HEADER_SIZE) :
    Scans machine k none (requestLine m u major minor)
      { k with
        flags := {}
        contentLength := ULLONG_MAX
        state := .headerFieldStart
        method := m
        index := m.string.length + 1
        nread := k.nread + (requestLine m u major minor).length
        httpMajor := UInt16.ofNat major
        httpMinor := UInt16.ofNat minor } none [.note .messageBegin, .data .url u] := by
  rw [length_requestLine] at room ⊢
  have hmethod := scans_method m hk (by omega)
  have htarget := scans_target (k := { k.methodBegun m with
      state := .reqSpacesBeforeUrl
      index := m.string.length + 1
      nread := k.nread + m.string.length + 1 }) (u := u) rfl (by dsimp only; omega) target
  have hversion := scans_reqVersion (k := { k.methodBegun m with
      state := .reqHttpStart
      index := m.string.length + 1
      nread := k.nread + m.string.length + 1 + u.length + 1 }) hmajor hminor rfl
    (by dsimp only; omega)
  have hall := hmethod.trans (htarget.trans hversion)
  have htext : m.string ++ [SP] ++ (u ++ [SP] ++
      (ascii "HTTP/" ++ ((decimal major ++ [dot]) ++ (decimal minor ++ [CR, LF])))) =
        requestLine m u major minor := by
    simp [requestLine, versionText]
  rw [htext] at hall
  rw [show k.nread + (m.string.length + u.length + (decimal major).length +
    (decimal minor).length + 10) = k.nread + m.string.length + 1 + u.length + 1 +
      (decimal major).length + (decimal minor).length + 8 from by omega]
  exact hall

/-! ## The status line -/

def statusLine (major minor code : ℕ) (reason : Bytes) : Bytes :=
  versionText major minor ++ SP :: (decimal code ++ SP :: (reason ++ [CR, LF]))

def reasonReports (code : ℕ) (reason : Bytes) : List Report :=
  if reason = [] then [] else [.data (.status (UInt16.ofNat code)) reason]

theorem length_statusLine (major minor code : ℕ) (reason : Bytes) :
    (statusLine major minor code reason).length =
      (decimal major).length + (decimal minor).length + (decimal code).length + reason.length +
        10 := by
  simp only [statusLine, versionText, List.length_append, List.length_cons, List.length_nil,
    show (ascii "HTTP/").length = 5 from rfl]
  omega

theorem scans_code {code : ℕ} (hcode : code ≤ 999) (hk : k.state = .resFirstStatusCode)
    (room : k.nread + (decimal code).length < HTTP_MAX_HEADER_SIZE) :
    Scans machine k none (decimal code ++ [SP])
      { k with
        nread := k.nread + (decimal code).length + 1
        state := .resStatusStart
        statusCode := UInt16.ofNat code } none [] := by
  let reads (i : ℕ) (v : UInt16) : HttpParser :=
    { k with nread := k.nread + i, state := .resStatusCode, statusCode := v }
  have hnumber : Scans machine k none (decimal code)
      (reads (decimal code).length (UInt16.ofNat code)) none [] := by
    refine scans_decimal hcode (Nat.le_refl _) (fun d hd _ => ?_) fun i v d hd hi hv => ?_
    · rw [step_header (by rw [hk]; rfl) (by omega)]
      simp only [switch, hk, resFirstStatusCode, digitByte_isNum hd, Bool.not_true,
        Bool.false_eq_true, if_false, digit_first hd]
      rfl
    · rw [step_header rfl (by simp only [reads]; omega)]
      simp only [switch, reads, resStatusCode, digitByte_isNum hd, Bool.not_true,
        Bool.false_eq_true, if_false, if_neg hv]
      rfl
  have hspace := scans_byte (k := reads (decimal code).length (UInt16.ofNat code)) (c := SP) rfl
    (by simp only [reads]; omega) rfl
  exact hnumber.trans hspace

theorem scans_reasonRest {r : Bytes} (hk : k.state = .resStatus)
    (room : k.nread + r.length < HTTP_MAX_HEADER_SIZE) (breaks : CR ∉ r ∧ LF ∉ r) (l : Bytes) :
    Scans machine k (some (.status k.statusCode, l)) r { k with nread := k.nread + r.length }
      (some (.status k.statusCode, l ++ r)) [] := by
  induction r generalizing k l with
  | nil =>
    rw [List.append_nil]
    exact .nil k _
  | cons x r ih =>
    have hlength : k.nread + (r.length + 1) < HTTP_MAX_HEADER_SIZE := room
    rw [List.mem_cons, not_or, List.mem_cons, not_or] at breaks
    have hstep : k.step x 1 = ⟨{ k with nread := k.nread + 1 }, [], .next⟩ := by
      rw [step_header (by rw [hk]; rfl) (by omega)]
      simp only [switch, hk, resStatus, if_neg (Ne.symm breaks.1.1), if_neg (Ne.symm breaks.2.1)]
      rw [← hk]
      rfl
    have hlast := ih (k := { k with nread := k.nread + 1 }) hk (by dsimp only; omega)
      ⟨breaks.1.2, breaks.2.2⟩ (l ++ [x])
    rw [List.append_assoc, List.singleton_append] at hlast
    rw [List.length_cons, ← Nat.add_assoc, Nat.add_right_comm]
    exact .quiet hstep hlast

theorem scans_reason {reason : Bytes} (hk : k.state = .resStatusStart)
    (room : k.nread + reason.length + 1 < HTTP_MAX_HEADER_SIZE)
    (breaks : CR ∉ reason ∧ LF ∉ reason) : ∃ i : ℕ,
    Scans machine k none (reason ++ [CR, LF])
      { k with
        nread := k.nread + reason.length + 2
        state := .headerFieldStart
        index := i } none
      (if reason = [] then [] else [.data (.status k.statusCode) reason]) := by
  cases reason with
  | nil =>
    have h1 := scans_byte (k := k) (c := CR)
      (j := { k with nread := k.nread + 1, state := .resLineAlmostDone }) (by rw [hk]; rfl)
      (by simp only [List.length_nil] at room; omega) (by simp only [switch, hk]; rfl)
    have h2 := scans_byte (k := { k with nread := k.nread + 1, state := .resLineAlmostDone })
      (c := LF) rfl room rfl
    exact ⟨k.index, h1.trans h2⟩
  | cons x r =>
    rw [List.length_cons] at room
    rw [List.mem_cons, not_or, List.mem_cons, not_or] at breaks
    have hfirst : k.step x 1 =
        ⟨{ k with nread := k.nread + 1, state := .resStatus, index := 0 },
          [.mark (.status k.statusCode)], .next⟩ := by
      rw [step_header (by rw [hk]; rfl) (by omega)]
      simp only [switch, hk, resStatusStart, if_neg (Ne.symm breaks.1.1),
        if_neg (Ne.symm breaks.2.1)]
      rfl
    have hbegin : Scans machine k none [x] _ (some (.status k.statusCode, [x])) [] :=
      .opens hfirst rfl
    have hrest := scans_reasonRest (k := { k with
        nread := k.nread + 1, state := .resStatus, index := 0 }) rfl (by dsimp only; omega)
      ⟨breaks.1.2, breaks.2.2⟩ [x]
    have hcr : { k with
        nread := k.nread + 1 + r.length, state := .resStatus, index := 0 }.step CR 1 =
        ⟨{ k with nread := k.nread + 1 + r.length + 1, state := .resLineAlmostDone, index := 0 },
          [.flush (.status k.statusCode)], .next⟩ := by
      rw [step_header rfl (by dsimp only; omega)]
      rfl
    have hend : Scans machine { k with
        nread := k.nread + 1 + r.length, state := .resStatus, index := 0 }
        (some (.status k.statusCode, x :: r)) [CR] _ none [.data (.status k.statusCode) (x :: r)] :=
      .closed hcr (by simp [Slices.Piece.perform, Slices.Piece.act])
    have hlf := scans_byte (k := { k with
        nread := k.nread + 1 + r.length + 1, state := .resLineAlmostDone, index := 0 }) (c := LF)
      rfl (by dsimp only; omega) rfl
    refine ⟨0, ?_⟩
    rw [List.length_cons, show k.nread + (r.length + 1) + 2 = k.nread + 1 + r.length + 1 + 1 from by
      omega]
    exact hbegin.trans (hrest.trans (hend.trans hlf))

theorem scans_statusLine {major minor code : ℕ} {reason : Bytes} (hmajor : major ≤ 999)
    (hminor : minor ≤ 999) (hcode : code ≤ 999) (breaks : CR ∉ reason ∧ LF ∉ reason)
    (hk : k.state = .startRes)
    (room : k.nread + (statusLine major minor code reason).length ≤ HTTP_MAX_HEADER_SIZE) :
    ∃ i : ℕ, Scans machine k none (statusLine major minor code reason)
      { k with
        flags := {}
        contentLength := ULLONG_MAX
        state := .headerFieldStart
        index := i
        nread := k.nread + (statusLine major minor code reason).length
        httpMajor := UInt16.ofNat major
        httpMinor := UInt16.ofNat minor
        statusCode := UInt16.ofNat code } none
      (.note .messageBegin :: reasonReports code reason) := by
  rw [length_statusLine] at room ⊢
  let b : HttpParser := { k with flags := {}, contentLength := ULLONG_MAX }
  have h1 : Scans machine k none [0x48] { b with nread := k.nread + 1, state := .resH } none
      [.note .messageBegin] := by
    refine .closed (?_ : machine.step k 0x48 1 = ⟨_, [.note .messageBegin], .next⟩) rfl
    refine (step_header (by rw [hk]; rfl) (by omega) 0x48 1).trans ?_
    simp only [switch, hk, startRes]
    rfl
  have h2 := scans_byte (k := { b with nread := k.nread + 1, state := .resH }) (c := 0x54) rfl
    (by dsimp only; omega) rfl
  have h3 := scans_byte (k := { b with nread := k.nread + 2, state := .resHT }) (c := 0x54) rfl
    (by dsimp only; omega) rfl
  have h4 := scans_byte (k := { b with nread := k.nread + 3, state := .resHTT }) (c := 0x50) rfl
    (by dsimp only; omega) rfl
  have h5 := scans_byte (k := { b with nread := k.nread + 4, state := .resHTTP }) (c := 0x2f) rfl
    (by dsimp only; omega) rfl
  have h6 := scans_major (k := { b with nread := k.nread + 5, state := .resFirstHttpMajor })
    (s := .resFirstHttpMajor) (t := .resHttpMajor) (u := .resFirstHttpMinor) hmajor
    (Or.inl rfl) ⟨rfl, rfl⟩ (fun j c hj => by simp only [switch, hj])
    (fun j c hj => by simp only [switch, hj]) rfl (by dsimp only; omega)
  have h7 := scans_minor (k := { b with
      nread := k.nread + 5 + (decimal major).length + 1
      state := .resFirstHttpMinor
      httpMajor := UInt16.ofNat major }) (s := .resFirstHttpMinor) (t := .resHttpMinor) hminor
    ⟨rfl, rfl⟩ (fun j c hj => by simp only [switch, hj]) (fun j c hj hc => by
      have hsp : c ≠ SP := fun h => by rw [h] at hc; exact absurd hc (by decide)
      simp only [switch, hj, if_neg hsp]) rfl (by dsimp only; omega)
  have h8 := scans_byte (k := { b with
      nread := k.nread + 5 + (decimal major).length + 1 + (decimal minor).length
      state := .resHttpMinor
      httpMajor := UInt16.ofNat major
      httpMinor := UInt16.ofNat minor }) (c := SP) rfl (by dsimp only; omega) rfl
  have h9 := scans_code (k := { b with
      nread := k.nread + 5 + (decimal major).length + 1 + (decimal minor).length + 1
      state := .resFirstStatusCode
      httpMajor := UInt16.ofNat major
      httpMinor := UInt16.ofNat minor }) hcode rfl (by dsimp only; omega)
  obtain ⟨i, h10⟩ := scans_reason (k := { b with
      nread := k.nread + 5 + (decimal major).length + 1 + (decimal minor).length + 1 +
        (decimal code).length + 1
      state := .resStatusStart
      httpMajor := UInt16.ofNat major
      httpMinor := UInt16.ofNat minor
      statusCode := UInt16.ofNat code }) rfl (by dsimp only; omega) breaks
  have hall := (h1.trans (h2.trans (h3.trans (h4.trans h5)))).trans
    (h6.trans (h7.trans (h8.trans (h9.trans h10))))
  have htext : ([0x48] ++ ([0x54] ++ ([0x54] ++ ([0x50] ++ [0x2f])))) ++
      ((decimal major ++ [dot]) ++ (decimal minor ++ ([SP] ++ ((decimal code ++ [SP]) ++
        (reason ++ [CR, LF]))))) = statusLine major minor code reason := by
    simp [statusLine, versionText, ascii]
  rw [htext] at hall
  refine ⟨i, ?_⟩
  rw [show k.nread + ((decimal major).length + (decimal minor).length + (decimal code).length +
    reason.length + 10) = k.nread + 5 + (decimal major).length + 1 + (decimal minor).length + 1 +
      (decimal code).length + 1 + reason.length + 2 from by omega]
  exact hall

end HttpParser

end Hwnet.Http
