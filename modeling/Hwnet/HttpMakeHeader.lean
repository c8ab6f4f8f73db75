import Mathlib.Data.List.Nodup
import Hwnet.HttpPacket
import Hwnet.Splitting

set_option autoImplicit false

/-!
# Reading MakeHeader back

The reader knows the separators only: CRLF between the lines, the first two spaces of the start line
and the first colon of a header. `MakeHeader` puts no separator where the packet has one already.
-/
namespace Hwnet.Http

open Numerals

inductive StartLine where
  | request (method : ℕ) (url : Bytes) (major minor : ℕ)
  | response (major minor : ℕ) (statusCode : ℕ) (status : Bytes)
  deriving DecidableEq, Repr

/-! ## The reader -/

def dot : UInt8 := 0x2e

def readDecimal (b : Bytes) : ℕ := Nat.ofDigitChars 10 (b.map fun x => Char.ofNat x.toNat) 0

def readVersion (b : Bytes) : Option (ℕ × ℕ) :=
  if (ascii "HTTP/").isPrefixOf b then
    (Splitting.first dot (b.drop 5)).map fun p => (readDecimal p.1, readDecimal p.2)
  else none

def readStartLine (type : ℤ) (line : Bytes) : Option StartLine := do
  let (first, rest) ← Splitting.first SP line
  let (second, third) ← Splitting.first SP rest
  if type = HttpPacket.request then do
    let (major, minor) ← readVersion third
    return .request (methodStrings.idxOf first) second major minor
  else do
    let (major, minor) ← readVersion first
    return .response major minor (readDecimal second) third

/-- Lines of headers, a blank line, and nothing after its CRLF. -/
def readHeaders : List Bytes → Option (List (Bytes × Bytes))
  | [] => none
  | line :: lines =>
    if line = [] then if lines = [[]] then some [] else none
    else do
      let h ← Splitting.first colon line
      let hs ← readHeaders lines
      return h :: hs

def readBack (type : ℤ) (text : Bytes) : Option (StartLine × List (Bytes × Bytes)) :=
  match Splitting.atPair CR LF text with
  | [] => none
  | line :: lines => do
    let start ← readStartLine type line
    let hs ← readHeaders lines
    return (start, hs)

/-! ## What MakeHeader writes -/

namespace HttpPacket

variable {k : HttpPacket} {type : ℤ}

def startLine (k : HttpPacket) (type : ℤ) : StartLine :=
  if type = request then .request k.method.toNat k.url k.httpMajor.toNat k.httpMinor.toNat
  else .response k.httpMajor.toNat k.httpMinor.toNat k.statusCode.toNat k.status

/-- No separator in the strings. Line feeds alone do no harm, nor do names without a letter. -/
structure Plain (k : HttpPacket) (type : ℤ) : Prop where
  method : type = request → k.method.toNat < methodStrings.length
  url : SP ∉ k.url ∧ CR ∉ k.url
  status : CR ∉ k.status
  names : ∀ h ∈ k.headers.toList, colon ∉ h.1 ∧ CR ∉ h.1
  values : ∀ h ∈ k.headers.toList, CR ∉ h.2

def start (k : HttpPacket) (type : ℤ) : Option Bytes :=
  if type = request then
    methodStrings[k.method.toNat]?.map fun method =>
      method ++ SP :: (k.url ++ SP :: k.version)
  else some (k.version ++ SP :: (decimal k.statusCode.toNat ++ SP :: k.status))

theorem makeHeader_eq (k : HttpPacket) (type : ℤ) (out : Bytes) : k.makeHeader type out =
    (k.start type).map fun line =>
      out ++ (line ++ CR :: LF :: (k.headers.toList.flatMap headerLine ++ [CR, LF])) := by
  unfold makeHeader start
  by_cases hrequest : type = request
  · simp only [if_pos hrequest]
    cases methodStrings[k.method.toNat]? <;> simp [List.flatMap]
  · simp [if_neg hrequest, List.flatMap]

theorem readDecimal_decimal (n : ℕ) : readDecimal (decimal n) = n := by
  have hback : (decimal n).map (fun x => Char.ofNat x.toNat) = Nat.toDigits 10 n := by
    rw [decimal, List.map_map]
    refine (List.map_congr_left fun c hc => ?_).trans (List.map_id _)
    show Char.ofNat c.toNat.toUInt8.toNat = c
    rw [(toNat_digit (isDigit_of_mem hc)).1, Char.ofNat_toNat]
  rw [readDecimal, hback, Nat.ofDigitChars_ten_toDigits]

theorem version_eq (k : HttpPacket) : k.version =
    ascii "HTTP/" ++ (decimal k.httpMajor.toNat ++ dot :: decimal k.httpMinor.toNat) := by
  simp [version, show ascii "." = [dot] from rfl]

theorem readVersion_version (k : HttpPacket) :
    readVersion k.version = some (k.httpMajor.toNat, k.httpMinor.toNat) := by
  have hprefix : (ascii "HTTP/").isPrefixOf k.version = true := by
    rw [List.isPrefixOf_iff_prefix, version_eq]
    exact List.prefix_append _ _
  have hdrop : k.version.drop 5 =
      decimal k.httpMajor.toNat ++ dot :: decimal k.httpMinor.toNat := by
    rw [version_eq]
    rfl
  have hdot : dot ∉ decimal k.httpMajor.toNat := not_mem_decimal (by decide)
  rw [readVersion, if_pos hprefix, hdrop, Splitting.first_append hdot]
  simp [readDecimal_decimal]

/-- Of the characters that are no digits only those of "HTTP/" and the dot occur. -/
theorem not_mem_version {x : UInt8} (other : x.toNat < 48 ∨ 57 < x.toNat)
    (letter : x ∉ ascii "HTTP/.") (k : HttpPacket) : x ∉ k.version := by
  have hletters : x ∉ ascii "HTTP/" ∧ x ≠ dot := by
    have hsplit : ascii "HTTP/." = ascii "HTTP/" ++ [dot] := rfl
    rw [hsplit, List.mem_append, not_or] at letter
    exact ⟨letter.1, fun h => letter.2 (List.mem_singleton.mpr h)⟩
  rw [version_eq]
  simp only [List.mem_append, List.mem_cons, not_or]
  exact ⟨hletters.1, not_mem_decimal other, hletters.2, not_mem_decimal other⟩

theorem mem_methodStrings {method : Bytes} (h : method ∈ methodStrings) :
    SP ∉ method ∧ CR ∉ method := by
  revert method
  decide

theorem readStartLine_start (plain : k.Plain type) : ∃ line, k.start type = some line ∧
    CR ∉ line ∧ readStartLine type line = some (k.startLine type) := by
  have hversion : CR ∉ k.version := not_mem_version (by decide) (by decide) k
  unfold start startLine
  by_cases hrequest : type = request
  · have hlt := plain.method hrequest
    have hmem := mem_methodStrings (List.getElem_mem hlt)
    refine ⟨methodStrings[k.method.toNat] ++ SP :: (k.url ++ SP :: k.version), ?_, ?_, ?_⟩
    · rw [if_pos hrequest, List.getElem?_eq_getElem hlt]
      rfl
    · simp only [List.mem_append, List.mem_cons, not_or]
      exact ⟨hmem.2, by decide, plain.url.2, by decide, hversion⟩
    · have hindex : methodStrings.idxOf methodStrings[k.method.toNat] = k.method.toNat :=
        List.Nodup.idxOf_getElem (by decide) _ hlt
      rw [readStartLine, Splitting.first_append hmem.1]
      simp only [Option.bind_eq_bind, Option.bind_some, Splitting.first_append plain.url.1,
        if_pos hrequest, readVersion_version, hindex]
      rfl
  · have hspace : SP ∉ k.version := not_mem_version (by decide) (by decide) k
    have hcode : SP ∉ decimal k.statusCode.toNat := not_mem_decimal (by decide)
    refine ⟨k.version ++ SP :: (decimal k.statusCode.toNat ++ SP :: k.status), ?_, ?_, ?_⟩
    · rw [if_neg hrequest]
    · simp only [List.mem_append, List.mem_cons, not_or]
      exact ⟨hversion, by decide, not_mem_decimal (by decide), by decide, plain.status⟩
    · rw [readStartLine, Splitting.first_append hspace]
      simp only [Option.bind_eq_bind, Option.bind_some, Splitting.first_append hcode,
        if_neg hrequest, readVersion_version, readDecimal_decimal]
      rfl

theorem readHeaders_lines {hs : List (Bytes × Bytes)}
    (names : ∀ h ∈ hs, colon ∉ h.1 ∧ CR ∉ h.1) (values : ∀ h ∈ hs, CR ∉ h.2) :
    readHeaders (Splitting.atPair CR LF (hs.flatMap headerLine ++ [CR, LF])) = some hs := by
  induction hs with
  | nil => decide
  | cons h hs ih =>
    obtain ⟨hcolon, hcr⟩ := names h List.mem_cons_self
    have hrest := ih (fun x hx => names x (List.mem_cons_of_mem _ hx))
      fun x hx => values x (List.mem_cons_of_mem _ hx)
    have hline : CR ∉ h.1 ++ colon :: h.2 := by
      simp only [List.mem_append, List.mem_cons, not_or]
      exact ⟨hcr, by decide, values h List.mem_cons_self⟩
    have htext : (h :: hs).flatMap headerLine ++ [CR, LF] =
        (h.1 ++ colon :: h.2) ++ CR :: LF :: (hs.flatMap headerLine ++ [CR, LF]) := by
      simp [headerLine]
    have hne : h.1 ++ colon :: h.2 ≠ [] := by simp
    rw [htext, Splitting.atPair_append hline, readHeaders, if_neg hne,
      Splitting.first_append hcolon, hrest]
    rfl

/-- What `MakeHeader` appends is read back as the start line and the whole map, so no other such
packet has the text. -/
theorem makeHeader_reads_back {k : HttpPacket} {type : ℤ} (plain : k.Plain type) (out : Bytes) :
    ∃ text, k.makeHeader type out = some (out ++ text) ∧
      readBack type text = some (k.startLine type, k.headers.toList) ∧
      ∀ k' : HttpPacket, k'.Plain type → k'.makeHeader type out = some (out ++ text) →
        k'.startLine type = k.startLine type ∧ k'.headers = k.headers := by
  have hreads {k : HttpPacket} (plain : k.Plain type) : ∃ text,
      k.makeHeader type out = some (out ++ text) ∧
      readBack type text = some (k.startLine type, k.headers.toList) := by
    obtain ⟨line, hstart, hcr, hread⟩ := readStartLine_start plain
    refine ⟨line ++ CR :: LF :: (k.headers.toList.flatMap headerLine ++ [CR, LF]), ?_, ?_⟩
    · rw [makeHeader_eq, hstart]
      rfl
    · rw [readBack, Splitting.atPair_append hcr]
      simp only [hread, readHeaders_lines plain.names plain.values]
      rfl
  obtain ⟨text, hmake, hread⟩ := hreads plain
  refine ⟨text, hmake, hread, fun k' plain' hmake' => ?_⟩
  obtain ⟨text', hmake'', hread'⟩ := hreads plain'
  have htext : text' = text := by
    have := hmake''.symm.trans hmake'
    simpa using this
  rw [htext, hread] at hread'
  simp only [Option.some.injEq, Prod.mk.injEq] at hread'
  exact ⟨hread'.1.symm, Std.ExtTreeMap.toList_inj.mp hread'.2.symm⟩

def search : HttpPacket :=
  { HttpPacket.new 20 0 with
    url := ascii "*"
    headers := ((∅ : Headers).insert (ascii "Host") (ascii "x:80")).insert (ascii "A") [] }

theorem makeHeader_reads_back_search : search.makeHeader request (ascii "> ") =
      some (ascii "> M-SEARCH * HTTP/1.1\r\nA:\r\nHost:x:80\r\n\r\n") ∧
    ∃ text, search.makeHeader request (ascii "> ") = some (ascii "> " ++ text) ∧
      readBack request text = some (.request 20 (ascii "*") 1 1,
        [(ascii "A", []), (ascii "Host", ascii "x:80")]) ∧
      ∀ k' : HttpPacket, k'.Plain request → k'.makeHeader request (ascii "> ") =
        some (ascii "> " ++ text) →
          k'.startLine request = .request 20 (ascii "*") 1 1 ∧ k'.headers = search.headers :=
  ⟨by decide, makeHeader_reads_back (k := search)
    ⟨fun _ => by decide, by decide, by decide, by decide, by decide⟩ (ascii "> ")⟩

end HttpPacket

end Hwnet.Http
