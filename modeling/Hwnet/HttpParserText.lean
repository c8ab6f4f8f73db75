import Hwnet.HttpParserBody

set_option autoImplicit false

/-!
# Messages

Messages as they are written, and what the parser reports of a sequence of them.
-/
namespace Hwnet.Http.HttpParser

open Slices (Scans)

/-! ## Messages as they are written -/

inductive Start where
  | request (method : HttpMethod) (url : Bytes)
  | response (code : ℕ) (reason : Bytes)
  deriving DecidableEq, Repr

/-- The last chunk is a zero in any spelling. -/
inductive Content where
  | empty
  | identity (body : Bytes)
  | chunked (chunks : List Chunk) (zero parameters : Bytes) (trailers : List Header)
  deriving DecidableEq, Repr

structure Text where
  start : Start
  major : ℕ
  minor : ℕ
  headers : List Header
  content : Content
  deriving DecidableEq, Repr

namespace Start

def type : Start → ParserType
  | .request _ _ => .request
  | .response _ _ => .response

def text (major minor : ℕ) : Start → Bytes
  | .request m u => requestLine m u major minor
  | .response code reason => statusLine major minor code reason

def reports : Start → List Report
  | .request _ u => [.data .url u]
  | .response code reason => reasonReports code reason

/-- A CONNECT request is an upgrade. -/
def Legal (major : ℕ) : Start → Prop
  | .request m u => m ≠ .connect ∧ Target m u ∧ 1 ≤ major
  | .response code reason => code ≤ 999 ∧ CR ∉ reason ∧ LF ∉ reason

/-- Without a length there is no body. -/
def Bodiless : Start → Prop
  | .request _ _ => True
  | .response code _ => code / 100 = 1 ∨ code = 204 ∨ code = 304

end Start

namespace Content

def text : Content → Bytes
  | .empty => []
  | .identity body => body
  | .chunked chunks zero parameters trailers =>
    chunks.flatMap Chunk.text ++
      ((zero ++ (parameters ++ [CR, LF])) ++ (trailers.flatMap Header.text ++ [CR, LF]))

def reports : Content → List Report
  | .empty => []
  | .identity body => [.data .body body]
  | .chunked chunks _ _ trailers =>
    (chunks.map fun c => .data .body c.data) ++ trailers.flatMap Header.reports

/-- The flags and the content length that the header block leaves fit the body. -/
def Framed (bodiless : Prop) (f : Flags) (n : UInt64) : Content → Prop
  | .empty => f.chunked = false ∧ (n = 0 ∨ n = ULLONG_MAX ∧ bodiless)
  | .identity body =>
    f.chunked = false ∧ body ≠ [] ∧ n ≠ ULLONG_MAX ∧ n.toNat = body.length
  | .chunked chunks zero parameters trailers =>
    f.chunked = true ∧ (∀ c ∈ chunks, c.Legal) ∧
      readSize zero = some 0 ∧ Parameters parameters ∧
      (zero ++ (parameters ++ [CR, LF])).length ≤ HTTP_MAX_HEADER_SIZE ∧
      (∀ d ∈ trailers, d.Legal) ∧ (meanings trailers { f with trailing := true } 0).isSome ∧
      (trailers.flatMap Header.text).length + 2 ≤ HTTP_MAX_HEADER_SIZE

def lastFlags (f : Flags) : Content → Flags
  | .chunked _ _ _ trailers =>
    ((meanings trailers { f with trailing := true } 0).map Prod.fst).getD f
  | _ => f

/-- The bytes of the trailers count for the header block of the next message. -/
def carry : Content → ℕ
  | .chunked _ _ _ trailers => (trailers.flatMap Header.text).length + 2
  | _ => 0

end Content

namespace Text

def type (d : Text) : ParserType := d.start.type

def head (d : Text) : Bytes :=
  d.start.text d.major d.minor ++ (d.headers.flatMap Header.text ++ [CR, LF])

def text (d : Text) : Bytes := d.head ++ d.content.text

def reports (d : Text) : List Report :=
  .note .messageBegin :: d.start.reports ++ (d.headers.flatMap Header.reports ++
    .note (.headersComplete (UInt16.ofNat d.major) (UInt16.ofNat d.minor)) ::
      (d.content.reports ++ [.note .messageComplete]))

def framing (d : Text) : Option (Flags × UInt64) := meanings d.headers {} ULLONG_MAX

/-- `carry` bytes have been counted before. -/
structure Legal (d : Text) (carry : ℕ) : Prop where
  start : d.start.Legal d.major
  version : d.major ≤ 999 ∧ d.minor ≤ 999
  headers : ∀ h ∈ d.headers, h.Legal
  room : carry + d.head.length ≤ HTTP_MAX_HEADER_SIZE
  framed : ∃ (f : Flags) (n : UInt64), d.framing = some (f, n) ∧ f.upgrade = false ∧
    d.content.Framed d.start.Bodiless f n

def keepsAlive (d : Text) : Bool :=
  match d.framing with
  | none => false
  | some (f, _) =>
    if 0 < d.major ∧ 0 < d.minor then !(d.content.lastFlags f).connectionClose
    else (d.content.lastFlags f).connectionKeepAlive

end Text

/-! ## The header block -/

variable {k : HttpParser} {f f' : Flags} {n n' : UInt64}

/-- A header keeps the flags that it is not about. -/
theorem meaning_keeps {h : HeaderState} {v : Bytes} (hm : meaning h v f n = some (f', n')) :
    f'.trailing = f.trailing ∧ f'.skipbody = f.skipbody ∧
      (f.chunked = true → f'.chunked = true) := by
  revert hm
  fun_cases meaning h v f n <;> intro hm
  all_goals first
    | (cases hm; exact ⟨rfl, rfl, fun h => h⟩)
    | (cases hm; exact ⟨rfl, rfl, fun _ => rfl⟩)
    | (obtain ⟨m, -, heq⟩ := Option.map_eq_some_iff.mp hm
       cases heq
       exact ⟨rfl, rfl, fun h => h⟩)

theorem meanings_keep {hs : List Header} (hm : meanings hs f n = some (f', n')) :
    f'.trailing = f.trailing ∧ f'.skipbody = f.skipbody ∧
      (f.chunked = true → f'.chunked = true) := by
  induction hs generalizing f n with
  | nil =>
    cases hm
    exact ⟨rfl, rfl, fun h => h⟩
  | cons d hs ih =>
    rw [meanings, List.foldlM_cons] at hm
    obtain ⟨⟨f₁, n₁⟩, hfirst, hrest⟩ := Option.bind_eq_some_iff.mp hm
    obtain ⟨ht, hs, hc⟩ := meaning_keeps hfirst
    obtain ⟨ht', hs', hc'⟩ := ih hrest
    exact ⟨ht'.trans ht, hs'.trans hs, fun h => hc' (hc h)⟩

structure Idle (t : ParserType) (carry : ℕ) (k : HttpParser) : Prop where
  state : k.state = k.startState
  type : k.type = t
  method : t = .response → k.method ≠ .connect
  nread : k.nread = carry

structure Started (d : Text) (k j : HttpParser) : Prop where
  state : j.state = .headerFieldStart
  flags : j.flags = {}
  contentLength : j.contentLength = ULLONG_MAX
  type : j.type = k.type
  method : j.method ≠ .connect
  nread : j.nread = k.nread + (d.start.text d.major d.minor).length
  version : j.httpMajor = UInt16.ofNat d.major ∧ j.httpMinor = UInt16.ofNat d.minor
  bodiless : d.start.Bodiless → j.type = .request ∨
    (j.statusCode / 100 = 1 || j.statusCode = 204 || j.statusCode = 304) = true

theorem scans_start {d : Text} {t : ParserType} {carry : ℕ} (idle : Idle t carry k)
    (legal : d.start.Legal d.major) (version : d.major ≤ 999 ∧ d.minor ≤ 999)
    (room : k.nread + (d.start.text d.major d.minor).length ≤ HTTP_MAX_HEADER_SIZE)
    (side : d.type = t) : ∃ j : HttpParser, Started d k j ∧
      Scans machine k none (d.start.text d.major d.minor) j none
        (.note .messageBegin :: d.start.reports) := by
  obtain ⟨start, major, minor, headers, content⟩ := d
  cases start with
  | request m u =>
    have htype : k.type = .request := idle.type.trans side.symm
    obtain ⟨hconnect, htarget, hmajor⟩ := legal
    have hstate : k.state = .startReq := by
      rw [idle.state, startState, if_pos htype]
    refine ⟨_, ?_, scans_requestLine m htarget ⟨hmajor, version.1⟩ version.2 hstate room⟩
    exact ⟨rfl, rfl, rfl, rfl, hconnect, rfl, ⟨rfl, rfl⟩, fun _ => Or.inl htype⟩
  | response code reason =>
    have htype : k.type = .response := idle.type.trans side.symm
    obtain ⟨hcode, hbreaks⟩ := legal
    have hne : k.type ≠ .request := by
      rw [htype]
      exact fun h => by cases h
    have hstate : k.state = .startRes := by
      rw [idle.state, startState, if_neg hne]
    obtain ⟨i, hscan⟩ := scans_statusLine version.1 version.2 hcode hbreaks hstate room
    refine ⟨_, ?_, hscan⟩
    refine ⟨rfl, rfl, rfl, rfl, idle.method (side ▸ rfl), rfl, ⟨rfl, rfl⟩, fun hbodiless => ?_⟩
    have hnat : (UInt16.ofNat code).toNat = code := by
      rw [UInt16.toNat_ofNat']
      omega
    have h100 : (100 : UInt16).toNat = 100 := rfl
    have h1 : (1 : UInt16).toNat = 1 := rfl
    have h204 : (204 : UInt16).toNat = 204 := rfl
    have h304 : (304 : UInt16).toNat = 304 := rfl
    refine Or.inr ?_
    simp only [Bool.or_eq_true, decide_eq_true_eq, ← UInt16.toNat_inj, UInt16.toNat_div, hnat]
    rw [h100, h1, h204, h304, or_assoc]
    exact hbodiless

structure AtEnd (i : HttpParser) : Prop where
  trailing : i.flags.trailing = false
  skipbody : i.flags.skipbody = false
  upgrade : i.flags.upgrade = false
  method : i.method ≠ .connect

def completeNote (i : HttpParser) : Note := .headersComplete i.httpMajor i.httpMinor

def behind (i : HttpParser) : HttpParser :=
  { i with nread := 0, state := .headersDone, upgrade := false }

theorem AtEnd.done {i : HttpParser} (h : i.AtEnd) : i.headersAlmostDone LF =
    Reaction.after
      (if i.flags.chunked then i.behind.goes .chunkSizeStart []
      else if i.contentLength = 0 then i.behind.goes i.behind.newMessage [.note .messageComplete]
      else if i.contentLength ≠ ULLONG_MAX then i.behind.goes .bodyIdentity []
      else if i.type = .request || !i.behind.messageNeedsEof then
        i.behind.goes i.behind.newMessage [.note .messageComplete]
      else i.behind.goes .bodyIdentityEof []) [.note i.completeNote] := by
  simp only [headersAlmostDone, h.trailing, h.upgrade, h.method, headersDone, h.skipbody, ne_eq,
    not_true, if_false, Bool.false_eq_true, decide_false, Bool.or_false]
  rfl

theorem newMessage_eq (needs : k.messageNeedsEof = false) : k.newMessage =
    if (if 0 < k.httpMajor ∧ 0 < k.httpMinor then !k.flags.connectionClose
      else k.flags.connectionKeepAlive) then k.startState else .dead := by
  unfold newMessage shouldKeepAlive
  rw [needs]
  split <;> [cases k.flags.connectionClose; cases k.flags.connectionKeepAlive] <;> rfl

theorem ofNat_pos {m : ℕ} (hm : m ≤ 999) : 0 < UInt16.ofNat m ↔ 0 < m := by
  rw [UInt16.lt_iff_toNat_lt, UInt16.toNat_ofNat', show (0 : UInt16).toNat = 0 from rfl,
    Nat.mod_eq_of_lt (by omega)]

structure Headed (d : Text) (k i : HttpParser) (f : Flags) (n : UInt64) : Prop where
  flags : i.flags = f
  contentLength : i.contentLength = n
  type : i.type = k.type
  method : i.method ≠ .connect
  version : i.httpMajor = UInt16.ofNat d.major ∧ i.httpMinor = UInt16.ofNat d.minor
  bodiless : d.start.Bodiless → i.type = .request ∨
    (i.statusCode / 100 = 1 || i.statusCode = 204 || i.statusCode = 304) = true

theorem Headed.atEnd {d : Text} {i : HttpParser} (h : Headed d k i f n)
    (hm : d.framing = some (f, n)) (upgrade : f.upgrade = false) : i.AtEnd := by
  obtain ⟨ht, hs, -⟩ := meanings_keep hm
  exact ⟨by rw [h.flags, ht], by rw [h.flags, hs], by rw [h.flags, upgrade], h.method⟩

/-- The header block; `i` is the parser at the last LF. -/
theorem scans_head {d : Text} {t : ParserType} {carry : ℕ} (idle : Idle t carry k)
    (legal : d.Legal carry) (side : d.type = t) (hm : d.framing = some (f, n)) :
    ∃ i : HttpParser, Headed d k i f n ∧
      ∀ (j : HttpParser) (acts : List (Slices.Act Mark Note)) (out : List Report),
        i.headersAlmostDone LF = ⟨j, acts, .next⟩ →
        Slices.Piece.perform LF none acts = some (none, out) →
        Scans machine k none d.head j none
          (.note .messageBegin :: d.start.reports ++ (d.headers.flatMap Header.reports ++ out)) := by
  have hroom := legal.room
  simp only [Text.head, List.length_append, List.length_cons, List.length_nil] at hroom
  rw [← idle.nread] at hroom
  obtain ⟨s, hs, hstart⟩ := scans_start idle legal.start legal.version (by omega) side
  have hline : s.lineStart := Or.inl hs.state
  have hflags : s.lineFlags = {} := by
    rw [lineFlags, if_neg (by rw [hs.state]; decide), hs.flags]
  have hpending : s.pending = [] := by simp [pending, hs.state]
  obtain ⟨j, out, hheaders, hj, hout, hlast⟩ := scans_headers legal.headers hline
    (by rw [hs.nread]; omega) (by rw [hflags, hs.contentLength]; exact hm)
  rw [hpending, List.nil_append] at hout
  have hjnread : j.nread = s.nread + (d.headers.flatMap Header.text).length :=
    congrArg nread hlast
  refine ⟨{ j.line with nread := j.nread + 2, state := .headersAlmostDone }, ?_, ?_⟩
  · rw [hlast]
    exact ⟨rfl, rfl, hs.type, hs.method, hs.version, hs.bodiless⟩
  · intro i acts out' hi hacts
    have hblank := scans_blankLine hj (by rw [hjnread, hs.nread]; omega) hi hacts
    have hall := hstart.trans (hheaders.trans hblank)
    rw [← List.append_assoc out, hout] at hall
    exact hall

/-! ## The end of a message -/

theorem needs_of_framed (h : k.flags.chunked = true ∨ k.contentLength ≠ ULLONG_MAX) :
    k.messageNeedsEof = false := by
  have hframed : (k.flags.chunked || k.contentLength ≠ ULLONG_MAX) = true := by
    rcases h with h | h <;> simp [h]
  unfold messageNeedsEof
  rw [if_pos hframed]
  split
  · rfl
  · split <;> rfl

theorem needs_of_bodiless (h : k.type = .request ∨
    (k.statusCode / 100 = 1 || k.statusCode = 204 || k.statusCode = 304) = true) :
    k.messageNeedsEof = false := by
  unfold messageNeedsEof
  rcases h with h | h
  · rw [if_pos h]
  · split
    · rfl
    · rw [h, Bool.true_or, if_pos rfl]

structure Rests (d : Text) (t : ParserType) (j : HttpParser) : Prop where
  state : j.state = if d.keepsAlive then j.startState else .dead
  type : j.type = t
  method : j.method ≠ .connect
  nread : j.nread = d.content.carry

theorem Rests.idle {d : Text} {t : ParserType} {j : HttpParser} (h : Rests d t j)
    (alive : d.keepsAlive = true) : Idle t d.content.carry j :=
  ⟨by rw [h.state, alive, if_pos rfl], h.type, fun _ => h.method, h.nread⟩

theorem newMessage_alive {d : Text} {i : HttpParser} (hm : d.framing = some (f, n))
    (version : d.major ≤ 999 ∧ d.minor ≤ 999) (flags : i.flags = d.content.lastFlags f)
    (versions : i.httpMajor = UInt16.ofNat d.major ∧ i.httpMinor = UInt16.ofNat d.minor)
    (needs : i.messageNeedsEof = false) :
    i.newMessage = if d.keepsAlive then i.startState else .dead := by
  rw [newMessage_eq needs, Text.keepsAlive, hm, versions.1, versions.2, flags]
  simp only [ofNat_pos version.1, ofNat_pos version.2]

variable {d : Text} {i : HttpParser}

theorem Headed.empty (h : Headed d k i f n) (end_ : i.AtEnd) (chunked : f.chunked = false)
    (length : n = 0 ∨ n = ULLONG_MAX ∧ d.start.Bodiless) :
    i.behind.messageNeedsEof = false ∧ i.headersAlmostDone LF =
      ⟨{ i.behind with state := i.behind.newMessage },
        [.note i.completeNote, .note .messageComplete], .next⟩ := by
  have hmax : (0 : UInt64) ≠ ULLONG_MAX := by decide
  rw [end_.done, h.flags, chunked, h.contentLength]
  rcases length with rfl | ⟨rfl, hbodiless⟩
  · refine ⟨needs_of_framed (Or.inr ?_), rfl⟩
    show i.contentLength ≠ ULLONG_MAX
    rw [h.contentLength]
    exact hmax
  · have hneeds : i.behind.messageNeedsEof = false := needs_of_bodiless (h.bodiless hbodiless)
    refine ⟨hneeds, ?_⟩
    rw [hneeds, Bool.not_false, Bool.or_true, if_neg (by decide), if_neg (Ne.symm hmax),
      if_neg (by simp), if_pos rfl]
    rfl

theorem scans_empty {t : ParserType} {carry : ℕ} (idle : Idle t carry k) (legal : d.Legal carry)
    (side : d.type = t) (hm : d.framing = some (f, n)) (upgrade : f.upgrade = false)
    (hcontent : d.content = .empty) (framed : d.content.Framed d.start.Bodiless f n) :
    ∃ j : HttpParser, Rests d t j ∧ Scans machine k none d.text j none d.reports := by
  obtain ⟨i, hi, hscan⟩ := scans_head idle legal side hm
  rw [hcontent] at framed
  obtain ⟨hneeds, hdone⟩ := hi.empty (hi.atEnd hm upgrade) framed.1 framed.2
  have hnew := newMessage_alive (i := i.behind) hm legal.version
    (by rw [hcontent]; exact hi.flags) hi.version hneeds
  have hall := hscan _ _ [.note i.completeNote, .note .messageComplete] hdone rfl
  have htext : d.text = d.head := by simp [Text.text, hcontent, Content.text]
  have hreports : d.reports = .note .messageBegin :: d.start.reports ++
      (d.headers.flatMap Header.reports ++ [.note i.completeNote, .note .messageComplete]) := by
    simp [Text.reports, hcontent, Content.reports, completeNote, hi.version]
  rw [htext, hreports]
  exact ⟨{ i.behind with state := i.behind.newMessage },
    ⟨hnew, hi.type.trans idle.type, hi.method, by rw [hcontent]; rfl⟩, hall⟩

theorem scans_identityText {t : ParserType} {carry : ℕ} {body : Bytes} (idle : Idle t carry k)
    (legal : d.Legal carry) (side : d.type = t) (hm : d.framing = some (f, n))
    (upgrade : f.upgrade = false) (hcontent : d.content = .identity body)
    (framed : d.content.Framed d.start.Bodiless f n) :
    ∃ j : HttpParser, Rests d t j ∧ Scans machine k none d.text j none d.reports := by
  obtain ⟨i, hi, hscan⟩ := scans_head idle legal side hm
  rw [hcontent] at framed
  obtain ⟨hchunked, hne, hmax, hlength⟩ := framed
  have hzero : n ≠ 0 := by
    rintro rfl
    exact hne (List.length_eq_zero_iff.mp hlength.symm)
  have hdone : i.headersAlmostDone LF =
      ⟨{ i.behind with state := .bodyIdentity }, [.note i.completeNote], .next⟩ := by
    rw [(hi.atEnd hm upgrade).done, hi.flags, hchunked, hi.contentLength, if_neg (by simp),
      if_neg hzero, if_pos hmax]
    rfl
  have hbody := scans_identity (k := { i.behind with state := .bodyIdentity }) rfl hne
    ((congrArg UInt64.toNat hi.contentLength).trans hlength)
    (fun h => hmax (hi.contentLength.symm.trans h))
  have hneeds : messageNeedsEof { i.behind with state := .bodyIdentity, contentLength := 0 } =
      false :=
    needs_of_framed (Or.inr (show (0 : UInt64) ≠ ULLONG_MAX by decide))
  have hnew := newMessage_alive
    (i := { i.behind with state := .bodyIdentity, contentLength := 0 }) hm legal.version
    (by rw [hcontent]; exact hi.flags) hi.version hneeds
  have hall := (hscan _ _ [.note i.completeNote] hdone rfl).trans hbody
  have htext : d.text = d.head ++ body := by simp [Text.text, hcontent, Content.text]
  have hreports : d.reports = (.note .messageBegin :: d.start.reports ++
      (d.headers.flatMap Header.reports ++ [.note i.completeNote])) ++
        [.data .body body, .note .messageComplete] := by
    simp [Text.reports, hcontent, Content.reports, completeNote, hi.version]
  rw [htext, hreports]
  exact ⟨{ i.behind with
      contentLength := 0
      state := newMessage { i.behind with state := .bodyIdentity, contentLength := 0 } },
    ⟨hnew, hi.type.trans idle.type, hi.method, by rw [hcontent]; rfl⟩, hall⟩

theorem scans_chunkedText {t : ParserType} {carry : ℕ} {chunks : List Chunk}
    {zero parameters : Bytes} {trailers : List Header} (idle : Idle t carry k)
    (legal : d.Legal carry) (side : d.type = t) (hm : d.framing = some (f, n))
    (upgrade : f.upgrade = false) (hcontent : d.content = .chunked chunks zero parameters trailers)
    (framed : d.content.Framed d.start.Bodiless f n) :
    ∃ j : HttpParser, Rests d t j ∧ Scans machine k none d.text j none d.reports := by
  obtain ⟨i, hi, hscan⟩ := scans_head idle legal side hm
  rw [hcontent] at framed
  obtain ⟨hchunked, hchunks, hzero, hparameters, hlast, htrailers, hsome, hroom⟩ := framed
  obtain ⟨⟨f', n'⟩, hf'⟩ := Option.isSome_iff_exists.mp hsome
  obtain ⟨htrailing, -, hkeeps⟩ := meanings_keep hf'
  have hdone : i.headersAlmostDone LF =
      ⟨{ i.behind with state := .chunkSizeStart }, [.note i.completeNote], .next⟩ := by
    rw [(hi.atEnd hm upgrade).done, hi.flags, hchunked, if_pos rfl]
    rfl
  have hflag : i.behind.flags.chunked = true := (congrArg Flags.chunked hi.flags).trans hchunked
  obtain ⟨m, hdata⟩ := scans_chunks (k := { i.behind with state := .chunkSizeStart }) hchunks rfl
    rfl hflag
  have hend := scans_chunkHead (k := { i.behind with
    state := .chunkSizeStart, contentLength := m }) rfl rfl hflag hzero hparameters hlast
  rw [if_pos rfl] at hend
  let b : HttpParser := { i.behind with
    contentLength := 0
    flags := { i.behind.flags with trailing := true }
    state := .headerFieldStart }
  have hb : b.lineStart := Or.inl rfl
  have hflags : b.lineFlags = { f with trailing := true } := by
    show { i.flags with trailing := true } = _
    rw [hi.flags]
  obtain ⟨j, out, hheaders, hj, hout, hline⟩ := scans_headers (k := b) htrailers hb
    (by show 0 + _ ≤ _; omega) (by rw [hflags]; exact hf')
  have hjnread : j.nread = (trailers.flatMap Header.text).length :=
    (congrArg nread hline).trans (Nat.zero_add _)
  let e : HttpParser := { j.line with nread := j.nread + 2, state := .headersAlmostDone }
  have heflags : e.flags = f' := congrArg HttpParser.flags hline
  have hmessage : e.headersAlmostDone LF =
      ⟨{ e with state := e.newMessage }, [.note .messageComplete], .next⟩ := by
    rw [headersAlmostDone, if_neg (by simp), if_pos (by rw [heflags, htrailing])]
    rfl
  have hblank : Scans machine _ none [CR, LF] _ none (j.pending ++ [.note .messageComplete]) :=
    scans_blankLine hj (by rw [hjnread]; omega) hmessage rfl
  have hlastFlags : d.content.lastFlags f = f' := by
    rw [hcontent, Content.lastFlags, hf']
    rfl
  have hversion : e.httpMajor = UInt16.ofNat d.major ∧ e.httpMinor = UInt16.ofNat d.minor :=
    ⟨(congrArg httpMajor hline).trans hi.version.1, (congrArg httpMinor hline).trans hi.version.2⟩
  have hneeds : e.messageNeedsEof = false :=
    needs_of_framed (Or.inl (by rw [heflags]; exact hkeeps hchunked))
  have hnew := newMessage_alive hm legal.version (heflags.trans hlastFlags.symm) hversion hneeds
  have hall := (hscan _ _ [.note i.completeNote] hdone rfl).trans
    (hdata.trans (hend.trans (hheaders.trans hblank)))
  rw [List.nil_append, ← List.append_assoc out, hout] at hall
  have htext : d.text = d.head ++ (chunks.flatMap Chunk.text ++ ((zero ++ (parameters ++
      [CR, LF])) ++ (trailers.flatMap Header.text ++ [CR, LF]))) := by
    simp [Text.text, hcontent, Content.text]
  have hreports : d.reports = (.note .messageBegin :: d.start.reports ++
      (d.headers.flatMap Header.reports ++ [.note i.completeNote])) ++
        ((chunks.map fun c => .data .body c.data) ++
          (b.pending ++ trailers.flatMap Header.reports ++ [.note .messageComplete])) := by
    simp [Text.reports, hcontent, Content.reports, completeNote, hi.version, b, pending]
  rw [htext, hreports]
  refine ⟨{ e with state := e.newMessage }, ⟨hnew, ?_, ?_, ?_⟩, hall⟩
  · exact (congrArg type hline).trans (hi.type.trans idle.type)
  · exact fun h => hi.method ((congrArg method hline).symm.trans h)
  · rw [hcontent]
    exact congrArg (· + 2) hjnread

/-- A message: the callbacks are those of the message, and the parser is behind it. -/
theorem scans_text {t : ParserType} {carry : ℕ} (idle : Idle t carry k) (legal : d.Legal carry)
    (side : d.type = t) :
    ∃ j : HttpParser, Rests d t j ∧ Scans machine k none d.text j none d.reports := by
  obtain ⟨f, n, hm, hupgrade, hframed⟩ := legal.framed
  cases hcontent : d.content with
  | empty => exact scans_empty idle legal side hm hupgrade hcontent hframed
  | identity body => exact scans_identityText idle legal side hm hupgrade hcontent hframed
  | chunked chunks zero parameters trailers =>
    exact scans_chunkedText idle legal side hm hupgrade hcontent hframed

/-! ## Messages on a connection -/

/-- Messages that follow one another; only the last one may close the connection. -/
def Follows (t : ParserType) : ℕ → List Text → Prop
  | _, [] => True
  | carry, d :: ds =>
    d.Legal carry ∧ d.type = t ∧ (ds = [] ∨ d.keepsAlive = true) ∧ Follows t d.content.carry ds

theorem scans_texts {t : ParserType} {carry : ℕ} {ds : List Text} (idle : Idle t carry k)
    (follows : Follows t carry ds) :
    ∃ j : HttpParser, Scans machine k none (ds.flatMap Text.text) j none
      (ds.flatMap Text.reports) := by
  induction ds generalizing k carry with
  | nil => exact ⟨k, .nil k none⟩
  | cons d ds ih =>
    obtain ⟨hlegal, hside, halive, hrest⟩ := follows
    obtain ⟨i, hrests, hscan⟩ := scans_text idle hlegal hside
    rw [List.flatMap_cons, List.flatMap_cons]
    rcases halive with rfl | halive
    · exact ⟨i, hscan.trans (.nil i none)⟩
    · obtain ⟨j, hscans⟩ := ih (hrests.idle halive) hrest
      exact ⟨j, hscan.trans hscans⟩

theorem idle_init {t : ParserType} (ht : t ≠ .both) : Idle t 0 (init t) := by
  cases t
  · exact ⟨rfl, rfl, fun _ => by decide, rfl⟩
  · exact ⟨rfl, rfl, fun _ => by decide, rfl⟩
  · exact absurd rfl ht

/-- What is written is read: over any cut of the messages the callbacks are theirs once the pieces
of each string are joined, and in one buffer each string comes in one piece. -/
theorem texts_read {t : ParserType} (ht : t ≠ .both) {ds : List Text} (follows : Follows t 0 ds)
    {reads : List Bytes} (flatten : reads.flatten = ds.flatMap Text.text)
    (nonempty : ∀ r ∈ reads, r ≠ []) :
    ((init t).executeAll reads).ending = .next ∧
      ((init t).executeAll reads).consumed = (ds.flatMap Text.text).length ∧
      Slices.join ((init t).executeAll reads).reports = Slices.join (ds.flatMap Text.reports) ∧
      (reads.length = 1 → ((init t).executeAll reads).reports = ds.flatMap Text.reports) := by
  obtain ⟨j, hscan⟩ := scans_texts (idle_init ht) follows
  have hresume : machine.resume (init t) = none := by cases t <;> rfl
  rw [(fits_init t).executeAll_eq nonempty]
  obtain ⟨-, hconsumed, hending, hjoin⟩ := hscan.feed lawful bulk hresume flatten nonempty
  refine ⟨hending, hconsumed, hjoin, fun hone => ?_⟩
  obtain ⟨r, rfl⟩ := List.length_eq_one_iff.mp hone
  rw [List.flatten_singleton] at flatten
  rw [Slices.Machine.feed_singleton, flatten, hscan.execute bulk hresume]

def putTwo : Text where
  start := .request .put (ascii "/a?b")
  major := 1
  minor := 1
  headers := [⟨ascii "CONTENT-LENGTH", [SP], ascii "2"⟩, ⟨ascii "A", [], []⟩]
  content := .identity (ascii "hi")

def postChunk : Text where
  start := .request .post (ascii "/")
  major := 1
  minor := 1
  headers := [⟨ascii "Transfer-Encoding", [SP], ascii "Chunked"⟩]
  content := .chunked [⟨ascii "0B", ascii ";x", ascii "hello world"⟩] (ascii "00") []
    [⟨ascii "Connection", [HT], ascii "close "⟩]

theorem follows_putTwo : Follows .request 0 [putTwo, postChunk] := by
  have hput : putTwo.Legal 0 :=
    ⟨⟨by decide, ⟨by decide, by decide⟩, by decide⟩, by decide, by decide, by decide,
      {}, 2, by decide, rfl, rfl, by decide, by decide, by decide⟩
  have hpost : postChunk.Legal 0 :=
    ⟨⟨by decide, ⟨by decide, by decide⟩, by decide⟩, by decide, by decide, by decide,
      { chunked := true }, ULLONG_MAX, by decide, rfl, rfl, by decide, by decide, by decide,
      by decide, by decide, by decide, by decide⟩
  exact ⟨hput, rfl, Or.inr (by decide), hpost, rfl, Or.inl rfl, trivial⟩

theorem texts_read_putTwo :
    ((init .request).executeAll [(putTwo.text ++ postChunk.text).take 7,
      (putTwo.text ++ postChunk.text).drop 7]).ending = .next := by
  have hflatten : [(putTwo.text ++ postChunk.text).take 7,
      (putTwo.text ++ postChunk.text).drop 7].flatten =
        [putTwo, postChunk].flatMap Text.text := by
    simp
  exact (texts_read (by decide) follows_putTwo hflatten (by decide)).1

end Hwnet.Http.HttpParser
