import Hwnet.HttpParserExecute
import Hwnet.SlicesLanguage

set_option autoImplicit false

/-!
# What the parser relies on

The invariant of the loop, together with the order in which the callbacks are made: a message has
begun before its strings come, its header block ends once, the body is in between, and after the
end of a message nothing comes but the next one.
-/
namespace Hwnet.Http

open Slices (Control)

inductive Phase where
  | idle
  | opening
  | url
  | status
  | headers
  | body
  | trailers
  deriving DecidableEq, Repr

namespace Phase

def data : Phase → Mark → Option Phase
  | .opening, .url | .url, .url => some .url
  | .opening, .status _ | .status, .status _ => some .status
  | .opening, .headerField | .url, .headerField | .status, .headerField
  | .headers, .headerField | .headers, .headerValue => some .headers
  | .body, .body => some .body
  | .body, .headerField | .trailers, .headerField | .trailers, .headerValue => some .trailers
  | _, _ => none

/-- Each line break before a response begins the message once more. -/
def note : Phase → Note → Option Phase
  | .idle, .messageBegin | .opening, .messageBegin => some .opening
  | .opening, .headersComplete _ _ | .url, .headersComplete _ _ | .status, .headersComplete _ _
  | .headers, .headersComplete _ _ => some .body
  | .body, .messageComplete | .trailers, .messageComplete => some .idle
  | _, _ => none

def language : Slices.Language Phase Mark Note where
  data := data
  note := note
  again q q' k h := by
    cases q <;> cases k <;> cases h <;> rfl

end Phase

def HeaderState.ofName : HeaderState → Bool
  | .matchingTransferEncodingChunked | .matchingConnectionKeepAlive | .matchingConnectionClose
  | .transferEncodingChunked | .connectionKeepAlive | .connectionClose => false
  | _ => true

namespace HttpParser

def AtLine (k : HttpParser) (q : Phase) : Prop :=
  if k.flags.trailing then q = .body ∨ q = .trailers
  else q = .opening ∨ q = .url ∨ q = .status ∨ q = .headers

def InLine (k : HttpParser) (q : Phase) : Prop :=
  q = if k.flags.trailing then .trailers else .headers

/-- What holds of a state of the loop, which never stops in the two that are left at once. -/
def Stands (k : HttpParser) (q : Phase) : Prop :=
  match k.state with
  | .dead | .startReqOrRes | .startReq => q = .idle
  | .startRes => q = .idle ∨ q = .opening
  | .reqMethod => q = .opening ∧ k.flags.trailing = false ∧ k.index ≤ k.method.string.length
  | .resStatus => q = .status ∧ k.flags.trailing = false
  | .resLineAlmostDone => (q = .opening ∨ q = .status) ∧ k.flags.trailing = false
  | .headerFieldStart | .headersAlmostDone => k.AtLine q
  | .headerField => k.InLine q ∧ k.headerState.ofName
  | .headerValue =>
    k.InLine q ∧ k.headerState ≠ .connection ∧ k.headerState ≠ .transferEncoding
  | .headerValueDiscardWs | .headerValueDiscardWsAlmostDone | .headerValueDiscardLws
  | .headerValueStart | .headerValueLws | .headerAlmostDone => k.InLine q
  | .headersDone | .messageDone => False
  | .chunkSizeStart => q = .body ∧ k.flags.chunked ∧ k.nread = 0
  | .chunkSize | .chunkParameters | .chunkSizeAlmostDone =>
    q = .body ∧ k.flags.chunked ∧ k.contentLength ≠ ULLONG_MAX
  | .chunkData =>
    q = .body ∧ k.flags.chunked ∧ k.contentLength ≠ 0 ∧ k.contentLength ≠ ULLONG_MAX
  | .chunkDataAlmostDone => q = .body ∧ k.flags.chunked ∧ k.contentLength = 0
  | .chunkDataDone => q = .body ∧ k.flags.chunked
  | .bodyIdentity => q = .body ∧ k.contentLength ≠ 0 ∧ k.contentLength ≠ ULLONG_MAX
  | .bodyIdentityEof => q = .body
  | .reqSchema | .reqSchemaSlash | .reqSchemaSlashSlash | .reqServerStart | .reqServer
  | .reqServerWithAt | .reqPath | .reqQueryStringStart | .reqQueryString | .reqFragmentStart
  | .reqFragment | .reqHttpStart | .reqHttpH | .reqHttpHT | .reqHttpHTT | .reqHttpHTTP
  | .reqFirstHttpMajor | .reqHttpMajor | .reqFirstHttpMinor | .reqHttpMinor
  | .reqLineAlmostDone => q = .url ∧ k.flags.trailing = false
  | _ => q = .opening ∧ k.flags.trailing = false

structure Fits (k : HttpParser) (q : Phase) : Prop where
  errno : k.httpErrno = .ok
  nread : k.nread ≤ HTTP_MAX_HEADER_SIZE
  stands : k.Stands q

def reportsOf (ch : UInt8) (a : Option Mark) (r : Reaction) : List Report :=
  (Slices.emit ch a r.acts).1 ++
    if r.control = .next then Slices.ends ch (Slices.emit ch a r.acts).2 else []

/-- A reaction that is defined, that has an error number if it fails, and that reports what may
come in the phase. -/
structure Sound (ch : UInt8) (a : Option Mark) (q : Phase) (r : Reaction) : Prop where
  fault : r.control ≠ .fault
  errno : r.control = .error → r.state.httpErrno ≠ .ok
  reads : ∃ q' : Phase, Phase.language.reads q (reportsOf ch a r) = some q' ∧
    (r.control = .next ∨ r.control = .exit → r.state.Fits q')

variable {k : HttpParser} {ch : UInt8} {a b : Option Mark} {q q' : Phase} {r : Reaction}

theorem Sound.fails {e : HttpErrno} (he : e ≠ .ok) : Sound ch a q (k.fails e) :=
  ⟨by simp [HttpParser.fails], fun _ => he, q, rfl, by simp [HttpParser.fails]⟩

theorem Sound.goes {s : State} (reads : Phase.language.reads q (Slices.ends ch a) = some q')
    (fits : { k with state := s }.Fits q') : Sound ch a q (k.goes s []) :=
  ⟨by simp [HttpParser.goes], by simp [HttpParser.goes], q', reads, fun _ => fits⟩

theorem Sound.stays (reads : Phase.language.reads q (Slices.ends ch a) = some q')
    (fits : k.Fits q') : Sound ch a q k.stays :=
  ⟨by simp [HttpParser.stays], by simp [HttpParser.stays], q', reads, fun _ => fits⟩

theorem Sound.after {acts : List (Slices.Act Mark Note)} (h : Sound ch b q' r)
    (marks : (Slices.emit ch a acts).2 = b)
    (reads : Phase.language.reads q (Slices.emit ch a acts).1 = some q') :
    Sound ch a q (r.after acts) := by
  obtain ⟨q'', hq'', hfits⟩ := h.reads
  refine ⟨h.fault, h.errno, q'', ?_, hfits⟩
  have hreports : reportsOf ch a (r.after acts) =
      (Slices.emit ch a acts).1 ++ reportsOf ch b r := by
    simp only [reportsOf, Reaction.after, Slices.emit_append, marks, List.append_assoc]
  rw [hreports, Slices.Language.reads_append, reads]
  exact hq''

theorem Sound.goes_acts {s : State} {acts : List (Slices.Act Mark Note)}
    (marks : (Slices.emit ch a acts).2 = b)
    (reads : Phase.language.reads q (Slices.emit ch a acts).1 = some q')
    (ends : Phase.language.reads q' (Slices.ends ch b) = some q')
    (fits : { k with state := s }.Fits q') : Sound ch a q (k.goes s acts) := by
  have hafter : k.goes s acts = (k.goes s []).after acts := by
    simp [HttpParser.goes, Reaction.after]
  rw [hafter]
  exact (Sound.goes ends fits).after marks reads

/-! ## The start line -/

structure Begun (k : HttpParser) : Prop where
  errno : k.httpErrno = .ok
  nread : k.nread ≤ HTTP_MAX_HEADER_SIZE
  trailing : k.flags.trailing = false

theorem Begun.line (h : k.Begun) {s : State} (hs : s = .headerFieldStart)
    (hq : q = .opening ∨ q = .url ∨ q = .status ∨ q = .headers) : { k with state := s }.Fits q := by
  subst hs
  exact ⟨h.errno, h.nread, by simpa [Stands, AtLine, h.trailing] using hq⟩

theorem sound_expects {c : UInt8} {s : State}
    (reads : Phase.language.reads q (Slices.ends ch a) = some q')
    (fits : { k with state := s }.Fits q') : Sound ch a q (k.expects ch c s) := by
  unfold expects
  split
  · exact Sound.fails (by simp)
  · exact Sound.goes reads fits

theorem sound_firstHttpMajor {low : UInt8} {s : State}
    (fits : ∀ n : UInt16, { k with httpMajor := n, state := s }.Fits q) :
    Sound ch none q (k.firstHttpMajor ch low s) := by
  unfold firstHttpMajor
  split
  · exact Sound.fails (by simp)
  · exact Sound.goes rfl (fits _)

theorem sound_httpMajorDigit {s : State} (fits : { k with state := s }.Fits q)
    (again : ∀ n : UInt16, { k with httpMajor := n }.Fits q) :
    Sound ch none q (k.httpMajorDigit ch s) := by
  unfold httpMajorDigit
  split
  · exact Sound.goes rfl fits
  · split
    · exact Sound.fails (by simp)
    · dsimp only
      split
      · exact Sound.fails (by simp)
      · exact Sound.stays rfl (again _)

theorem sound_firstHttpMinor {s : State}
    (fits : ∀ n : UInt16, { k with httpMinor := n, state := s }.Fits q) :
    Sound ch none q (k.firstHttpMinor ch s) := by
  unfold firstHttpMinor
  split
  · exact Sound.fails (by simp)
  · exact Sound.goes rfl (fits _)

theorem sound_httpMinorDigit (again : ∀ n : UInt16, { k with httpMinor := n }.Fits q) :
    Sound ch none q (k.httpMinorDigit ch) := by
  unfold httpMinorDigit
  split
  · exact Sound.fails (by simp)
  · dsimp only
    split
    · exact Sound.fails (by simp)
    · exact Sound.stays rfl (again _)

theorem sound_startRes (errno : k.httpErrno = .ok) (nread : k.nread ≤ HTTP_MAX_HEADER_SIZE)
    (hk : k.state = .startRes) (hq : q = .idle ∨ q = .opening) :
    Sound ch none q (k.startRes ch) := by
  have hbegin : Phase.language.reads q ([.note .messageBegin] : List Report) = some .opening := by
    rcases hq with rfl | rfl <;> rfl
  unfold startRes
  dsimp only
  split
  · exact Sound.goes_acts rfl hbegin rfl ⟨errno, nread, rfl, rfl⟩
  · split
    · refine Sound.after (b := none) (Sound.stays rfl ⟨errno, nread, ?_⟩) rfl hbegin
      simp [Stands, hk]
    · exact Sound.fails (by simp)

theorem sound_resFirstStatusCode (h : k.Begun) (hk : k.state = .resFirstStatusCode) :
    Sound ch none .opening (k.resFirstStatusCode ch) := by
  unfold resFirstStatusCode
  split
  · split
    · exact Sound.stays rfl ⟨h.errno, h.nread, by simp [Stands, hk, h.trailing]⟩
    · exact Sound.fails (by simp)
  · exact Sound.goes rfl ⟨h.errno, h.nread, rfl, h.trailing⟩

theorem sound_resStatusCode (h : k.Begun) (hk : k.state = .resStatusCode) :
    Sound ch none .opening (k.resStatusCode ch) := by
  unfold resStatusCode
  split
  · split
    · exact Sound.goes rfl ⟨h.errno, h.nread, rfl, h.trailing⟩
    · split
      · exact Sound.goes rfl ⟨h.errno, h.nread, Or.inl rfl, h.trailing⟩
      · split
        · exact Sound.goes rfl (h.line rfl (by simp))
        · exact Sound.fails (by simp)
  · dsimp only
    split
    · exact Sound.fails (by simp)
    · exact Sound.stays rfl ⟨h.errno, h.nread, by simp [Stands, hk, h.trailing]⟩

theorem sound_resStatusStart (h : k.Begun) : Sound ch none .opening (k.resStatusStart ch) := by
  unfold resStatusStart
  split
  · exact Sound.goes rfl ⟨h.errno, h.nread, Or.inl rfl, h.trailing⟩
  · split
    · exact Sound.goes rfl (h.line rfl (by simp))
    · exact Sound.goes_acts rfl rfl rfl ⟨h.errno, h.nread, rfl, h.trailing⟩

theorem sound_resStatus (h : k.Begun) (hk : k.state = .resStatus) :
    Sound ch (some (.status k.statusCode)) .status (k.resStatus ch) := by
  unfold resStatus
  split
  · exact Sound.goes_acts rfl rfl rfl ⟨h.errno, h.nread, Or.inr rfl, h.trailing⟩
  · split
    · exact Sound.goes_acts rfl rfl rfl (h.line rfl (by simp))
    · exact Sound.stays rfl ⟨h.errno, h.nread, by simp [Stands, hk, h.trailing]⟩

theorem string_pos (m : HttpMethod) : 1 ≤ m.string.length := by
  cases m <;> decide

theorem sound_startReq (errno : k.httpErrno = .ok) (nread : k.nread ≤ HTTP_MAX_HEADER_SIZE)
    (hk : k.state = .startReq) : Sound ch none .idle (k.startReq ch) := by
  unfold startReq
  split
  · exact Sound.stays rfl ⟨errno, nread, by simp [Stands, hk]⟩
  · dsimp only
    split
    · exact Sound.fails (by simp)
    · split
      · exact Sound.fails (by simp)
      · exact Sound.goes_acts rfl rfl rfl ⟨errno, nread, rfl, rfl, string_pos _⟩

/-- A method that takes the place of another is longer than the index. -/
theorem otherMethod_length {m m' : HttpMethod} {index : ℕ} {c : UInt8}
    (h : otherMethod m index c = some m') : index < m'.string.length := by
  revert h
  fun_cases otherMethod m index c <;> intro h <;> cases h
  all_goals
    have hindex : index = 1 ∨ index = 2 ∨ index = 3 ∨ index = 4 := by omega
    rcases hindex with rfl | rfl | rfl | rfl <;> first | decide | omega

theorem string_length (m : HttpMethod) : m.string.length < 255 := by
  cases m <;> decide

theorem sound_reqMethod (h : k.Begun) (hk : k.state = .reqMethod)
    (hindex : k.index ≤ k.method.string.length) : Sound ch none .opening (k.reqMethod ch) := by
  have hmod : (k.index + 1) % 256 = k.index + 1 := by
    have := string_length k.method
    omega
  have hget : k.index < (k.method.string ++ [NUL]).length := by
    rw [List.length_append, List.length_singleton]
    omega
  unfold reqMethod
  rw [List.getElem?_eq_getElem hget]
  split
  · exact Sound.fails (by simp)
  · next hnul =>
    dsimp only
    split
    · exact Sound.goes rfl ⟨h.errno, h.nread, rfl, h.trailing⟩
    · split
      · next hc =>
        have hlt : k.index < k.method.string.length := by
          rcases Nat.lt_or_eq_of_le hindex with hlt | heq
          · exact hlt
          · exact absurd (hc.trans (by simp [heq])) hnul
        refine Sound.stays rfl ⟨h.errno, h.nread, ?_⟩
        simp only [Stands, hk, hmod]
        exact ⟨trivial, h.trailing, hlt⟩
      · split
        · exact Sound.fails (by simp)
        · next m hother =>
          refine Sound.stays rfl ⟨h.errno, h.nread, ?_⟩
          simp only [Stands, hk, hmod]
          exact ⟨trivial, h.trailing, otherMethod_length hother⟩

theorem parseUrlChar_stands (h : k.Begun) (s : State) (c : UInt8) : parseUrlChar s c = .dead ∨
    { k with state := parseUrlChar s c }.Fits .url := by
  generalize hs : parseUrlChar s c = t
  have ht : t = .dead ∨ { k with state := t }.Stands .url := by
    revert hs
    unfold parseUrlChar parseUrlChar.server
    repeat' split
    all_goals rintro rfl; first | exact Or.inl rfl | exact Or.inr ⟨rfl, h.trailing⟩
  exact ht.imp_right fun hstands => ⟨h.errno, h.nread, hstands⟩

theorem sound_urlChar (h : k.Begun) {acts : List (Slices.Act Mark Note)}
    (marks : (Slices.emit ch a acts).2 = some .url)
    (reads : Phase.language.reads q (Slices.emit ch a acts).1 = some .url) :
    Sound ch a q (k.urlChar ch acts) := by
  unfold urlChar
  dsimp only
  split
  · exact Sound.after (b := some .url) (Sound.fails (by simp)) marks reads
  · next hne =>
    refine Sound.goes_acts marks reads rfl ?_
    rcases parseUrlChar_stands h k.state ch with hdead | hfits
    · exact absurd hdead hne
    · exact hfits

theorem sound_reqSpacesBeforeUrl (h : k.Begun) (hk : k.state = .reqSpacesBeforeUrl) :
    Sound ch none .opening (k.reqSpacesBeforeUrl ch) := by
  unfold reqSpacesBeforeUrl
  split
  · exact Sound.stays rfl ⟨h.errno, h.nread, by simp [Stands, hk, h.trailing]⟩
  · split
    · exact sound_urlChar (k := { k with state := .reqServerStart })
        ⟨h.errno, h.nread, h.trailing⟩ rfl rfl
    · exact sound_urlChar h rfl rfl

theorem sound_reqSchema (h : k.Begun) : Sound ch (some .url) .url (k.reqSchema ch) := by
  unfold reqSchema
  split
  · exact Sound.fails (by simp)
  · exact sound_urlChar h rfl rfl

theorem sound_reqUrl (h : k.Begun) : Sound ch (some .url) .url (k.reqUrl ch) := by
  unfold reqUrl
  split
  · exact Sound.goes_acts rfl rfl rfl ⟨h.errno, h.nread, rfl, h.trailing⟩
  · split
    · refine Sound.goes_acts rfl rfl rfl ?_
      split
      · exact ⟨h.errno, h.nread, rfl, h.trailing⟩
      · exact Begun.line (k := { k with httpMajor := 0, httpMinor := 9 })
          ⟨h.errno, h.nread, h.trailing⟩ rfl (by simp)
    · exact sound_urlChar h rfl rfl

theorem sound_reqHttpStart (h : k.Begun) (hk : k.state = .reqHttpStart) :
    Sound ch none .url (k.reqHttpStart ch) := by
  unfold reqHttpStart
  split
  · exact Sound.goes rfl ⟨h.errno, h.nread, rfl, h.trailing⟩
  · split
    · exact Sound.stays rfl ⟨h.errno, h.nread, by simp [Stands, hk, h.trailing]⟩
    · exact Sound.fails (by simp)

theorem sound_reqHttpMinor (h : k.Begun) (hk : k.state = .reqHttpMinor) :
    Sound ch none .url (k.reqHttpMinor ch) := by
  unfold reqHttpMinor
  split
  · exact Sound.goes rfl ⟨h.errno, h.nread, rfl, h.trailing⟩
  · split
    · exact Sound.goes rfl (h.line rfl (by simp))
    · exact sound_httpMinorDigit fun n => ⟨h.errno, h.nread, by simp [Stands, hk, h.trailing]⟩

theorem sound_startReqOrRes (errno : k.httpErrno = .ok) (nread : k.nread ≤ HTTP_MAX_HEADER_SIZE)
    (hk : k.state = .startReqOrRes) : Sound ch none .idle (k.startReqOrRes ch) := by
  unfold startReqOrRes
  split
  · exact Sound.stays rfl ⟨errno, nread, by simp [Stands, hk]⟩
  · dsimp only
    split
    · exact Sound.goes_acts rfl rfl rfl ⟨errno, nread, rfl, rfl⟩
    · exact sound_startReq errno nread rfl

theorem sound_resOrRespH (h : k.Begun) : Sound ch none .opening (k.resOrRespH ch) := by
  unfold resOrRespH
  split
  · exact Sound.goes rfl ⟨h.errno, h.nread, rfl, h.trailing⟩
  · split
    · exact Sound.fails (by simp)
    · exact Sound.goes rfl
        ⟨h.errno, h.nread, rfl, h.trailing, show 2 ≤ HttpMethod.head.string.length by decide⟩

/-! ## The headers -/

theorem fits_newMessage (j k : HttpParser) (errno : j.httpErrno = .ok)
    (nread : j.nread ≤ HTTP_MAX_HEADER_SIZE) : { j with state := k.newMessage }.Fits .idle := by
  refine ⟨errno, nread, ?_⟩
  unfold newMessage startState
  split
  · split
    · rfl
    · exact Or.inl rfl
  · rfl

theorem sound_headersDone (errno : k.httpErrno = .ok) : Sound ch none .body (k.headersDone ch) := by
  have hsize : 0 ≤ HTTP_MAX_HEADER_SIZE := Nat.zero_le _
  unfold headersDone
  split
  · exact Sound.fails (by simp)
  · dsimp only
    split
    · exact ⟨by simp, by simp, .idle, rfl,
        fun _ => fits_newMessage { k with nread := 0 } _ errno hsize⟩
    · split
      · exact Sound.goes_acts rfl rfl rfl (fits_newMessage _ _ errno hsize)
      · split
        · next hchunked => exact Sound.goes rfl ⟨errno, hsize, rfl, hchunked, rfl⟩
        · split
          · exact Sound.goes_acts rfl rfl rfl (fits_newMessage _ _ errno hsize)
          · next hzero =>
            split
            · next hmax => exact Sound.goes rfl ⟨errno, hsize, rfl, hzero, hmax⟩
            · split
              · exact Sound.goes_acts rfl rfl rfl (fits_newMessage _ _ errno hsize)
              · exact Sound.goes rfl ⟨errno, hsize, rfl⟩

theorem sound_headersAlmostDone (errno : k.httpErrno = .ok)
    (nread : k.nread ≤ HTTP_MAX_HEADER_SIZE) (hq : k.AtLine q) :
    Sound ch none q (k.headersAlmostDone ch) := by
  unfold headersAlmostDone
  split
  · exact Sound.fails (by simp)
  · unfold AtLine at hq
    split at hq
    · next htrailing =>
      rw [if_pos htrailing]
      rcases hq with rfl | rfl <;>
        exact Sound.goes_acts rfl rfl rfl (fits_newMessage _ _ errno nread)
    · next htrailing =>
      rw [if_neg htrailing]
      rcases hq with rfl | rfl | rfl | rfl <;>
        exact Sound.after (b := none) (sound_headersDone errno) rfl rfl

theorem ofName_firstHeaderState (c : UInt8) : (firstHeaderState c).ofName := by
  unfold firstHeaderState
  repeat' split
  all_goals rfl

theorem AtLine.field (hq : k.AtLine q) (l : Bytes) : ∃ q' : Phase,
    Phase.language.reads q ([.data .headerField l] : List Report) = some q' ∧
      Phase.language.reads q' ([.data .headerField l] : List Report) = some q' ∧ k.InLine q' := by
  by_cases ht : k.flags.trailing
  · rw [AtLine, if_pos ht] at hq
    exact ⟨.trailers, by rcases hq with rfl | rfl <;> rfl, rfl, (if_pos ht).symm⟩
  · rw [AtLine, if_neg ht] at hq
    exact ⟨.headers, by rcases hq with rfl | rfl | rfl | rfl <;> rfl, rfl, (if_neg ht).symm⟩

theorem sound_headerFieldStart (errno : k.httpErrno = .ok)
    (nread : k.nread ≤ HTTP_MAX_HEADER_SIZE) (hq : k.AtLine q) :
    Sound ch none q (k.headerFieldStart ch) := by
  unfold headerFieldStart
  split
  · exact Sound.goes rfl ⟨errno, nread, hq⟩
  · split
    · exact sound_headersAlmostDone errno nread hq
    · split
      · exact Sound.fails (by simp)
      · obtain ⟨q', hq', hagain, hin⟩ := hq.field []
        exact Sound.goes_acts rfl hq' hagain ⟨errno, nread, hin, ofName_firstHeaderState _⟩

theorem InLine.data (hq : k.InLine q) (l : Bytes) :
    Phase.language.reads q ([.data .headerField l] : List Report) = some q ∧
      Phase.language.reads q ([.data .headerValue l] : List Report) = some q := by
  unfold InLine at hq
  split at hq <;> subst hq <;> exact ⟨rfl, rfl⟩

theorem InLine.atLine (hq : k.InLine q) : k.AtLine q := by
  unfold InLine at hq
  unfold AtLine
  split at hq
  · next ht => exact (if_pos ht).mpr (Or.inr hq)
  · next ht => exact (if_neg ht).mpr (Or.inr (Or.inr (Or.inr hq)))

theorem matching_cases {P : HttpParser → Prop} {c : UInt8} {string : Bytes} {h : HeaderState}
    (general : ∀ i : ℕ, P { k with index := i, headerState := .general })
    (last : ∀ i : ℕ, P { k with index := i, headerState := h })
    (again : ∀ i : ℕ, P { k with index := i }) : P (k.matching c string h) := by
  unfold matching
  dsimp only
  split
  · exact general _
  · split
    · exact last _
    · exact again _

theorem sound_headerField (errno : k.httpErrno = .ok) (nread : k.nread ≤ HTTP_MAX_HEADER_SIZE)
    (hk : k.state = .headerField) (hin : k.InLine q) (hname : k.headerState.ofName) :
    Sound ch (some .headerField) q (k.headerField ch) := by
  have hreads := (hin.data [ch]).1
  have hfits (i : ℕ) {g : HeaderState} (hg : g.ofName) :
      { k with index := i, headerState := g }.Fits q := by
    refine ⟨errno, nread, ?_⟩
    simp only [Stands, hk]
    exact ⟨hin, hg⟩
  have hgeneral (i : ℕ) (p : Prop) [Decidable p] {g : HeaderState} (hg : g.ofName) :
      { k with index := i, headerState := if p then g else .general }.Fits q :=
    hfits i (by split <;> first | exact hg | rfl)
  have hmatching {c : UInt8} {string : Bytes} {h : HeaderState} (hh : h.ofName) :
      Sound ch (some .headerField) q (k.matching c string h).stays :=
    Sound.stays hreads (matching_cases (P := fun j => j.Fits q) (fun i => hfits i rfl)
      (fun i => hfits i hh) fun i => hfits i hname)
  unfold headerField
  split
  · unfold headerFieldToken
    dsimp only
    split
    case h_1 => exact Sound.stays hreads (hfits k.index hname)
    case h_2 => exact Sound.stays hreads (hgeneral _ _ rfl)
    case h_3 => exact Sound.stays hreads (hgeneral _ _ rfl)
    case h_4 =>
      refine Sound.stays hreads (hfits _ ?_)
      split
      · rfl
      · split <;> rfl
    case h_5 | h_6 | h_7 | h_8 | h_9 => exact hmatching rfl
    case h_10 | h_11 | h_12 | h_13 =>
      split
      · exact Sound.stays hreads (hfits k.index rfl)
      · exact Sound.stays hreads (hfits k.index hname)
    case h_14 =>
      cases hh : k.headerState <;> simp_all [HeaderState.ofName]
  · split
    · exact Sound.goes_acts rfl rfl rfl ⟨errno, nread, hin⟩
    · split
      · exact Sound.goes_acts rfl rfl rfl ⟨errno, nread, hin⟩
      · split
        · exact Sound.goes_acts rfl rfl rfl ⟨errno, nread, hin.atLine⟩
        · exact Sound.fails (by simp)

theorem sound_headerValueStart (errno : k.httpErrno = .ok) (nread : k.nread ≤ HTTP_MAX_HEADER_SIZE)
    (hin : k.InLine q) : Sound ch none q (k.headerValueStart ch) := by
  have hreads := (hin.data [ch]).2
  have hmark := (hin.data []).2
  unfold headerValueStart
  dsimp only
  split
  · exact Sound.after (b := some .headerValue) (Sound.stays hreads
      ⟨errno, nread, hin, by simp, by simp⟩) rfl hmark
  · refine Sound.after (b := some .headerValue) (Sound.stays hreads ⟨errno, nread, hin, ?_⟩) rfl
      hmark
    dsimp only
    split <;> simp
  · next hh =>
    split
    · exact Sound.after (b := some .headerValue) (Sound.fails (by simp)) rfl hmark
    · refine Sound.after (b := some .headerValue) (Sound.stays hreads ⟨errno, nread, hin, ?_⟩) rfl
        hmark
      simp [hh]
  · refine Sound.after (b := some .headerValue) (Sound.stays hreads ⟨errno, nread, hin, ?_⟩) rfl
      hmark
    dsimp only
    split
    · simp
    · split <;> simp
  · exact Sound.after (b := some .headerValue) (Sound.stays hreads
      ⟨errno, nread, hin, by simp, by simp⟩) rfl hmark

theorem sound_headerValueDiscardWs (errno : k.httpErrno = .ok)
    (nread : k.nread ≤ HTTP_MAX_HEADER_SIZE) (hk : k.state = .headerValueDiscardWs)
    (hin : k.InLine q) : Sound ch none q (k.headerValueDiscardWs ch) := by
  unfold headerValueDiscardWs
  split
  · refine Sound.stays rfl ⟨errno, nread, ?_⟩
    simp only [Stands, hk]
    exact hin
  · split
    · exact Sound.goes rfl ⟨errno, nread, hin⟩
    · split
      · exact Sound.goes rfl ⟨errno, nread, hin⟩
      · exact sound_headerValueStart errno nread hin

theorem sound_headerValue (errno : k.httpErrno = .ok) (nread : k.nread ≤ HTTP_MAX_HEADER_SIZE)
    (hk : k.state = .headerValue) (hin : k.InLine q) (hconnection : k.headerState ≠ .connection)
    (hencoding : k.headerState ≠ .transferEncoding) :
    Sound ch (some .headerValue) q (k.headerValue ch) := by
  have hreads := (hin.data [ch]).2
  have hfits (i : ℕ) (c : UInt64) {g : HeaderState} (hg : g ≠ .connection ∧ g ≠ .transferEncoding) :
      { k with index := i, headerState := g, contentLength := c }.Fits q := by
    refine ⟨errno, nread, ?_⟩
    simp only [Stands, hk]
    exact ⟨hin, hg⟩
  have hsame := And.intro hconnection hencoding
  have hmatching {c : UInt8} {string : Bytes} {h : HeaderState}
      (hh : h ≠ .connection ∧ h ≠ .transferEncoding) :
      Sound ch (some .headerValue) q (k.matching c string h).stays :=
    Sound.stays hreads (matching_cases (P := fun j => j.Fits q) (fun i => hfits i _ (by simp))
      (fun i => hfits i _ hh) fun i => hfits i _ hsame)
  unfold headerValue
  split
  · exact Sound.goes_acts rfl rfl rfl ⟨errno, nread, hin⟩
  · split
    · exact Sound.after (b := none) (sound_expects rfl ⟨errno, nread, hin⟩) rfl rfl
    · dsimp only
      split
      case h_1 => exact Sound.stays hreads (hfits k.index _ hsame)
      case h_2 hh => exact absurd hh hconnection
      case h_3 hh => exact absurd hh hencoding
      case h_4 =>
        unfold contentLengthDigit
        dsimp only
        split
        · exact Sound.stays hreads (hfits k.index _ hsame)
        · split
          · exact Sound.fails (by simp)
          · split
            · exact Sound.fails (by simp)
            · exact Sound.stays hreads (hfits k.index _ hsame)
      case h_5 | h_6 | h_7 => exact hmatching (by simp)
      case h_8 | h_9 | h_10 =>
        split
        · exact Sound.stays hreads (hfits k.index _ (by simp))
        · exact Sound.stays hreads (hfits k.index _ hsame)
      case h_11 => exact Sound.goes hreads ⟨errno, nread, hin, by simp⟩

theorem headerFlags_trailing (k : HttpParser) : k.headerFlags.trailing = k.flags.trailing := by
  unfold headerFlags
  split <;> rfl

theorem sound_headerValueLws (errno : k.httpErrno = .ok) (nread : k.nread ≤ HTTP_MAX_HEADER_SIZE)
    (hin : k.InLine q) : Sound ch none q (k.headerValueLws ch) := by
  unfold headerValueLws
  split
  · exact sound_headerValueStart errno nread hin
  · refine sound_headerFieldStart errno nread ?_
    have hline := hin.atLine
    unfold AtLine at hline ⊢
    rwa [headerFlags_trailing]

theorem sound_headerValueDiscardLws (errno : k.httpErrno = .ok)
    (nread : k.nread ≤ HTTP_MAX_HEADER_SIZE) (hin : k.InLine q) :
    Sound ch none q (k.headerValueDiscardLws ch) := by
  unfold headerValueDiscardLws
  split
  · exact Sound.goes rfl ⟨errno, nread, hin⟩
  · exact Sound.after (b := none) (sound_headerFieldStart errno nread hin.atLine) rfl
      (hin.data []).2

/-! ## The body -/

theorem ULLONG_MAX_toNat : ULLONG_MAX.toNat = 2 ^ 64 - 1 := rfl

theorem sub_one_ne {c : UInt64} (h : c ≠ 0) : c - UInt64.ofNat (min c.toNat 1) ≠ ULLONG_MAX := by
  intro heq
  have hne : c.toNat ≠ 0 := fun h' => h (UInt64.toNat_inj.mp h')
  have hlt := c.toNat_lt
  have hsub := congrArg UInt64.toNat heq
  rw [toNat_sub_ofNat (by omega), ULLONG_MAX_toNat] at hsub
  omega

theorem unhex_lt {c v : UInt8} (h : unhex c = some v) : v.toNat < 16 := by
  have hsub {c l m : UInt8} (hl : l ≤ c) (hm : c ≤ m) : (c - l).toNat ≤ m.toNat - l.toNat := by
    rw [UInt8.toNat_sub_of_le _ _ hl]
    rw [UInt8.le_iff_toNat_le] at hm
    omega
  unfold unhex isNum at h
  split at h
  · next hc =>
    simp only [Bool.and_eq_true, decide_eq_true_eq] at hc
    have : v.toNat ≤ 9 := by
      rw [← Option.some.inj h]
      exact hsub hc.1 hc.2
    omega
  · split at h
    · next hc =>
      simp only [Bool.and_eq_true, decide_eq_true_eq] at hc
      have : v.toNat ≤ 0x66 - 0x57 := by
        rw [← Option.some.inj h]
        exact hsub (UInt8.le_trans (by decide) hc.1) hc.2
      omega
    · split at h
      · rw [← Option.some.inj h]
        decide
      · simp at h

/-- A chunk size that was not too large to go on is none after one more digit. -/
theorem chunk_digit {c : UInt64} {v : UInt8} (hc : ¬ (ULLONG_MAX - 16) / 16 < c)
    (hv : v.toNat < 16) : (c * 16 + v.toUInt64).toNat = c.toNat * 16 + v.toNat := by
  have hle : c.toNat ≤ (2 ^ 64 - 1 - 16) / 16 := by
    rw [UInt64.not_lt, UInt64.le_iff_toNat_le] at hc
    exact hc
  rw [UInt64.toNat_add, UInt64.toNat_mul, UInt8.toNat_toUInt64]
  have h16 : (16 : UInt64).toNat = 16 := rfl
  rw [h16]
  omega

theorem sound_messageDone (errno : k.httpErrno = .ok) (nread : k.nread ≤ HTTP_MAX_HEADER_SIZE) :
    Sound ch none .body k.messageDone :=
  Sound.goes_acts rfl rfl rfl (fits_newMessage _ _ errno nread)

theorem sound_bodyIdentity (errno : k.httpErrno = .ok) (nread : k.nread ≤ HTTP_MAX_HEADER_SIZE)
    (hk : k.state = .bodyIdentity) (hzero : k.contentLength ≠ 0)
    (hmax : k.contentLength ≠ ULLONG_MAX) :
    Sound ch (some .body) .body (k.bodyIdentity 1) := by
  unfold bodyIdentity
  dsimp only
  rw [if_neg (by simp [hzero, hmax])]
  split
  · exact Sound.after (b := none) (sound_messageDone errno nread) rfl rfl
  · next hne =>
    refine Sound.after (b := some .body) (Sound.stays rfl ⟨errno, nread, ?_⟩) rfl rfl
    simp only [Stands, hk]
    exact ⟨trivial, hne, sub_one_ne hzero⟩

theorem sound_chunkData (errno : k.httpErrno = .ok) (nread : k.nread ≤ HTTP_MAX_HEADER_SIZE)
    (hk : k.state = .chunkData) (hchunked : k.flags.chunked) (hzero : k.contentLength ≠ 0)
    (hmax : k.contentLength ≠ ULLONG_MAX) : Sound ch (some .body) .body (k.chunkData 1) := by
  unfold chunkData
  dsimp only
  rw [if_neg (by simp [hchunked, hzero, hmax])]
  split
  · next hdone => exact Sound.goes_acts rfl rfl rfl ⟨errno, nread, rfl, hchunked, hdone⟩
  · next hne =>
    refine Sound.after (b := some .body) (Sound.stays rfl ⟨errno, nread, ?_⟩) rfl rfl
    simp only [Stands, hk]
    exact ⟨trivial, hchunked, hne, sub_one_ne hzero⟩

theorem sound_chunkSizeStart (errno : k.httpErrno = .ok) (nread : k.nread = 1)
    (hchunked : k.flags.chunked) : Sound ch none .body (k.chunkSizeStart ch) := by
  unfold chunkSizeStart
  rw [if_neg (by simp [hchunked, nread])]
  split
  · exact Sound.fails (by simp)
  · next v hv =>
    refine Sound.goes rfl ⟨errno, by simp [nread, HTTP_MAX_HEADER_SIZE], rfl, hchunked, ?_⟩
    intro heq
    have hsize := congrArg UInt64.toNat heq
    have hlt := unhex_lt hv
    rw [UInt8.toNat_toUInt64, ULLONG_MAX_toNat] at hsize
    omega

theorem sound_chunkSize (errno : k.httpErrno = .ok) (nread : k.nread ≤ HTTP_MAX_HEADER_SIZE)
    (hk : k.state = .chunkSize) (hchunked : k.flags.chunked)
    (hmax : k.contentLength ≠ ULLONG_MAX) : Sound ch none .body (k.chunkSize ch) := by
  unfold chunkSize
  rw [if_neg (by simp [hchunked])]
  split
  · exact Sound.goes rfl ⟨errno, nread, rfl, hchunked, hmax⟩
  · split
    · split
      · exact Sound.goes rfl ⟨errno, nread, rfl, hchunked, hmax⟩
      · exact Sound.fails (by simp)
    · next v hv =>
      dsimp only
      split
      · exact Sound.fails (by simp)
      · next hlimit =>
        refine Sound.stays rfl ⟨errno, nread, ?_⟩
        simp only [Stands, hk]
        refine ⟨trivial, hchunked, fun heq => ?_⟩
        have hsize := congrArg UInt64.toNat heq
        have hlt := unhex_lt hv
        rw [chunk_digit hlimit hlt, ULLONG_MAX_toNat] at hsize
        rw [UInt64.not_lt, UInt64.le_iff_toNat_le] at hlimit
        have hvalue : ((ULLONG_MAX - 16) / 16).toNat = (2 ^ 64 - 1 - 16) / 16 := rfl
        omega

theorem sound_chunkParameters (errno : k.httpErrno = .ok)
    (nread : k.nread ≤ HTTP_MAX_HEADER_SIZE) (hk : k.state = .chunkParameters)
    (hchunked : k.flags.chunked) (hmax : k.contentLength ≠ ULLONG_MAX) :
    Sound ch none .body (k.chunkParameters ch) := by
  unfold chunkParameters
  rw [if_neg (by simp [hchunked])]
  split
  · exact Sound.goes rfl ⟨errno, nread, rfl, hchunked, hmax⟩
  · refine Sound.stays rfl ⟨errno, nread, ?_⟩
    simp only [Stands, hk]
    exact ⟨trivial, hchunked, hmax⟩

theorem sound_chunkSizeAlmostDone (errno : k.httpErrno = .ok) (hchunked : k.flags.chunked)
    (hmax : k.contentLength ≠ ULLONG_MAX) : Sound ch none .body (k.chunkSizeAlmostDone ch) := by
  unfold chunkSizeAlmostDone
  rw [if_neg (by simp [hchunked])]
  split
  · exact Sound.fails (by simp)
  · dsimp only
    split
    · exact Sound.goes rfl ⟨errno, Nat.zero_le _, Or.inl rfl⟩
    · next hzero => exact Sound.goes rfl ⟨errno, Nat.zero_le _, rfl, hchunked, hzero, hmax⟩

theorem sound_chunkDataAlmostDone (errno : k.httpErrno = .ok)
    (nread : k.nread ≤ HTTP_MAX_HEADER_SIZE) (hchunked : k.flags.chunked)
    (hzero : k.contentLength = 0) : Sound ch (some .body) .body (k.chunkDataAlmostDone ch) := by
  unfold chunkDataAlmostDone
  rw [if_neg (by simp [hchunked, hzero])]
  split
  · exact Sound.fails (by simp)
  · exact Sound.goes_acts rfl rfl rfl ⟨errno, nread, rfl, hchunked⟩

theorem sound_chunkDataDone (errno : k.httpErrno = .ok) (hchunked : k.flags.chunked) :
    Sound ch none .body (k.chunkDataDone ch) := by
  unfold chunkDataDone
  rw [if_neg (by simp [hchunked])]
  split
  · exact Sound.fails (by simp)
  · exact Sound.goes rfl ⟨errno, Nat.zero_le _, rfl, hchunked, rfl⟩

theorem sound_dead (errno : k.httpErrno = .ok) (nread : k.nread ≤ HTTP_MAX_HEADER_SIZE)
    (hk : k.state = .dead) : Sound ch none .idle (k.dead ch) := by
  unfold dead
  split
  · exact Sound.stays rfl ⟨errno, nread, by simp [Stands, hk]⟩
  · exact Sound.fails (by simp)

/-! ## The switch -/

theorem sound_switch (h : k.Fits q) {n : ℕ} (nread : n ≤ HTTP_MAX_HEADER_SIZE)
    (first : k.state = .chunkSizeStart → n = 1) :
    Sound ch k.active q ({ k with nread := n }.switch ch 1) := by
  have errno := h.errno
  have hs := h.stands
  cases hk : k.state <;> have hactive := active_of_state hk <;>
    simp only [Stands, hk] at hs <;> simp only [switch] <;> rw [hactive]
  case dead => exact hs ▸ sound_dead errno nread rfl
  case startReqOrRes => exact hs ▸ sound_startReqOrRes errno nread rfl
  case startReq => exact hs ▸ sound_startReq errno nread rfl
  case startRes => exact sound_startRes errno nread rfl hs
  case reqMethod =>
    obtain ⟨rfl, htrailing, hindex⟩ := hs
    exact sound_reqMethod ⟨errno, nread, htrailing⟩ rfl hindex
  case headerFieldStart => exact sound_headerFieldStart errno nread hs
  case headersAlmostDone => exact sound_headersAlmostDone errno nread hs
  case headerField => exact sound_headerField errno nread rfl hs.1 hs.2
  case headerValue => exact sound_headerValue errno nread rfl hs.1 hs.2.1 hs.2.2
  case headerValueDiscardWs => exact sound_headerValueDiscardWs errno nread rfl hs
  case headerValueDiscardWsAlmostDone | headerAlmostDone =>
    exact sound_expects rfl ⟨errno, nread, hs⟩
  case headerValueDiscardLws => exact sound_headerValueDiscardLws errno nread hs
  case headerValueStart => exact sound_headerValueStart errno nread hs
  case headerValueLws => exact sound_headerValueLws errno nread hs
  case chunkSizeStart => exact hs.1 ▸ sound_chunkSizeStart errno (first hk) hs.2.1
  case chunkSize => exact hs.1 ▸ sound_chunkSize errno nread rfl hs.2.1 hs.2.2
  case chunkParameters => exact hs.1 ▸ sound_chunkParameters errno nread rfl hs.2.1 hs.2.2
  case chunkSizeAlmostDone => exact hs.1 ▸ sound_chunkSizeAlmostDone errno hs.2.1 hs.2.2
  case chunkData => exact hs.1 ▸ sound_chunkData errno nread rfl hs.2.1 hs.2.2.1 hs.2.2.2
  case chunkDataAlmostDone => exact hs.1 ▸ sound_chunkDataAlmostDone errno nread hs.2.1 hs.2.2
  case chunkDataDone => exact hs.1 ▸ sound_chunkDataDone errno hs.2
  case bodyIdentity => exact hs.1 ▸ sound_bodyIdentity errno nread rfl hs.2.1 hs.2.2
  case bodyIdentityEof =>
    subst hs
    refine Sound.after (b := some .body) (Sound.stays rfl ⟨errno, nread, ?_⟩) rfl rfl
    simp [Stands]
  case resLineAlmostDone =>
    obtain ⟨hq, htrailing⟩ := hs
    refine sound_expects rfl (Begun.line (k := { k with nread := n, state := .resLineAlmostDone })
      ⟨errno, nread, htrailing⟩ rfl ?_)
    rcases hq with rfl | rfl <;> simp
  all_goals
    obtain ⟨rfl, htrailing⟩ := hs
    have hbegun (s : State) : Begun { k with nread := n, state := s } :=
      ⟨errno, nread, htrailing⟩
  case resOrRespH => exact sound_resOrRespH (hbegun _)
  case resH | resHT | resHTT | resHTTP | reqHttpH | reqHttpHT | reqHttpHTT | reqHttpHTTP =>
    exact sound_expects rfl ⟨errno, nread, rfl, htrailing⟩
  case resFirstHttpMajor | reqFirstHttpMajor =>
    exact sound_firstHttpMajor fun _ => ⟨errno, nread, rfl, htrailing⟩
  case resHttpMajor | reqHttpMajor =>
    exact sound_httpMajorDigit ⟨errno, nread, rfl, htrailing⟩
      fun _ => ⟨errno, nread, by simp [Stands, htrailing]⟩
  case resFirstHttpMinor | reqFirstHttpMinor =>
    exact sound_firstHttpMinor fun _ => ⟨errno, nread, rfl, htrailing⟩
  case resHttpMinor =>
    split
    · exact Sound.goes rfl ⟨errno, nread, rfl, htrailing⟩
    · exact sound_httpMinorDigit fun _ => ⟨errno, nread, by simp [Stands, htrailing]⟩
  case resFirstStatusCode => exact sound_resFirstStatusCode (hbegun _) rfl
  case resStatusCode => exact sound_resStatusCode (hbegun _) rfl
  case resStatusStart => exact sound_resStatusStart (hbegun _)
  case resStatus => exact sound_resStatus (hbegun _) rfl
  case reqSpacesBeforeUrl => exact sound_reqSpacesBeforeUrl (hbegun _) rfl
  case reqSchema | reqSchemaSlash | reqSchemaSlashSlash | reqServerStart =>
    exact sound_reqSchema (hbegun _)
  case reqServer | reqServerWithAt | reqPath | reqQueryStringStart | reqQueryString
    | reqFragmentStart | reqFragment => exact sound_reqUrl (hbegun _)
  case reqHttpStart => exact sound_reqHttpStart (hbegun _) rfl
  case reqHttpMinor => exact sound_reqHttpMinor (hbegun _) rfl
  case reqLineAlmostDone =>
    split
    · exact Sound.fails (by simp)
    · exact Sound.goes rfl ((hbegun _).line rfl (by simp))

theorem sound_step (h : k.Fits q) (ch : UInt8) : Sound ch k.active q (k.step ch 1) := by
  have hnread := h.nread
  unfold step
  split
  · have hmod : (k.nread + 1) % 2 ^ 32 = k.nread + 1 := by
      unfold HTTP_MAX_HEADER_SIZE at hnread
      omega
    dsimp only
    rw [hmod]
    split
    · exact Sound.fails (by simp)
    · next hle =>
      refine sound_switch h (Nat.le_of_not_lt hle) fun hk => ?_
      have hs := h.stands
      simp only [Stands, hk] at hs
      rw [hs.2.2]
  · next hbody =>
    exact sound_switch h hnread fun hk => by simp [hk, State.parsingHeader] at hbody

theorem Fits.resume (h : k.Fits q) :
    Phase.language.reads q (Slices.starts k.resume : List Report) = some q := by
  have hs := h.stands
  cases hk : k.state <;> simp only [HttpParser.resume, hk] <;> simp only [Stands, hk] at hs <;>
    first
    | rfl
    | (obtain ⟨rfl, -⟩ := hs; rfl)
    | exact (hs.1.data []).1
    | exact (hs.1.data []).2

theorem speaks : Phase.language.Speaks machine Fits := by
  intro k q ch h
  obtain ⟨hfault, -, q', hq', hfits⟩ := sound_step h ch
  refine ⟨hfault, q', ?_, hfits⟩
  rw [Slices.Machine.stepReports, Slices.Language.reads_append]
  exact (congrArg (Option.bind · _) h.resume).trans hq'

theorem fits_init (t : ParserType) : (init t).Fits .idle := by
  cases t
  · exact ⟨rfl, Nat.zero_le _, rfl⟩
  · exact ⟨rfl, Nat.zero_le _, Or.inl rfl⟩
  · exact ⟨rfl, Nat.zero_le _, rfl⟩

end HttpParser

end Hwnet.Http
