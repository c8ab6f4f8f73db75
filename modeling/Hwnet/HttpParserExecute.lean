import Hwnet.HttpParserStep

set_option autoImplicit false

/-!
# Buffers of the parser

What `http_parser_execute` reports depends on how the bytes were cut only by how each string was
cut.
-/
namespace Hwnet.Http

open Slices (Control follow)

abbrev Report := Slices.Report UInt8 Mark Note
abbrev Executed := Slices.Result HttpParser UInt8 Mark Note

namespace HttpParser

/-- The mark that is set at the first byte. -/
def resume (k : HttpParser) : Option Mark :=
  match k.state with
  | .headerField => some .headerField
  | .headerValue => some .headerValue
  | .reqPath | .reqSchema | .reqSchemaSlash | .reqSchemaSlashSlash | .reqServerStart | .reqServer
  | .reqServerWithAt | .reqQueryStringStart | .reqQueryString | .reqFragmentStart | .reqFragment =>
    some .url
  | .resStatus => some (.status k.statusCode)
  | _ => none

/-- The mark that may be set after the first byte. -/
def active (k : HttpParser) : Option Mark :=
  match k.state with
  | .bodyIdentity | .bodyIdentityEof | .chunkData | .chunkDataAlmostDone => some .body
  | _ => k.resume

def machine : Slices.Machine HttpParser UInt8 Mark Note where
  step := step
  active := active
  resume := resume
  kinds := fun k => [.headerField, .headerValue, .url, .body, .status k.statusCode]

/-- `http_parser_execute`. A length of zero is the end of the input; it fails where a message has
begun. -/
def execute (k : HttpParser) (data : Bytes) : Executed :=
  if k.httpErrno ≠ .ok then ⟨k, [], 0, .error⟩
  else if data = [] then
    match k.state with
    | .bodyIdentityEof => ⟨k, [.note .messageComplete], 0, .next⟩
    | .dead | .startReqOrRes | .startRes | .startReq => ⟨k, [], 0, .next⟩
    | _ => ⟨{ k with httpErrno := .invalidEofState }, [], 1, .error⟩
  else machine.execute k data

/-! ## The marks -/

/-- What a reaction does to the marks, when `a` is active. -/
structure Marks (a : Option Mark) (r : Reaction) : Prop where
  next : r.control = .next → follow a r.acts = some r.state.active ∨
    follow a r.acts = some none ∧ r.state.resume = none
  exit : r.control = .exit → follow a r.acts = some none
  stop : (follow a r.acts).isSome

variable (k : HttpParser) (ch : UInt8)

theorem Marks.fails (a : Option Mark) (e : HttpErrno) : Marks a (k.fails e) :=
  ⟨fun h => by simp [HttpParser.fails] at h, fun h => by simp [HttpParser.fails] at h, rfl⟩

theorem Marks.faults (a : Option Mark) : Marks a k.faults :=
  ⟨fun h => by simp [HttpParser.faults] at h, fun h => by simp [HttpParser.faults] at h, rfl⟩

theorem Marks.stays {a : Option Mark} (h : k.active = a) : Marks a k.stays :=
  ⟨fun _ => Or.inl (h ▸ rfl), fun h => by simp [HttpParser.stays] at h, rfl⟩

theorem Marks.goes {a : Option Mark} {s : State} (h : { k with state := s }.active = a ∨
    a = none ∧ { k with state := s }.resume = none) : Marks a (k.goes s []) := by
  refine ⟨fun _ => ?_, fun h => by simp [HttpParser.goes] at h, rfl⟩
  rcases h with h | ⟨h, hresume⟩
  · exact Or.inl (h ▸ rfl)
  · exact Or.inr ⟨h ▸ rfl, hresume⟩

theorem Marks.after {a b : Option Mark} {r : Reaction} {acts : List (Slices.Act Mark Note)}
    (h : Marks b r) (hb : follow a acts = some b) : Marks a (r.after acts) := by
  have hfollow : follow a (r.after acts).acts = follow b r.acts := by
    rw [Reaction.after, Slices.follow_append, hb]
    rfl
  exact ⟨fun hc => hfollow ▸ h.next hc, fun hc => hfollow ▸ h.exit hc, hfollow ▸ h.stop⟩

theorem Marks.goes_acts {a b : Option Mark} {s : State} {acts : List (Slices.Act Mark Note)}
    (hb : follow a acts = some b) (h : { k with state := s }.active = b ∨
      b = none ∧ { k with state := s }.resume = none) : Marks a (k.goes s acts) := by
  have hafter : k.goes s acts = (k.goes s []).after acts := by
    simp [HttpParser.goes, Reaction.after]
  rw [hafter]
  exact (Marks.goes k h).after hb

theorem newMessage_active (k j : HttpParser) : { j with state := k.newMessage }.active = none := by
  unfold newMessage startState
  split
  · split <;> rfl
  · rfl

variable {k}

theorem marks_expects {a : Option Mark} (c : UInt8) {s : State}
    (h : { k with state := s }.active = a) : Marks a (k.expects ch c s) := by
  unfold expects
  split
  · exact Marks.fails k a _
  · exact Marks.goes k (Or.inl h)

theorem marks_firstHttpMajor (low : UInt8) {s : State} (h : { k with state := s }.active = none) :
    Marks none (k.firstHttpMajor ch low s) := by
  unfold firstHttpMajor
  split
  · exact Marks.fails k none _
  · exact Marks.goes _ (Or.inl h)

theorem marks_httpMajorDigit {s : State} (h : { k with state := s }.active = none)
    (hk : k.active = none) : Marks none (k.httpMajorDigit ch s) := by
  unfold httpMajorDigit
  split
  · exact Marks.goes k (Or.inl h)
  · split
    · exact Marks.fails k none _
    · dsimp only
      split
      · exact Marks.fails _ none _
      · exact Marks.stays _ hk

theorem marks_firstHttpMinor {s : State} (h : { k with state := s }.active = none) :
    Marks none (k.firstHttpMinor ch s) := by
  unfold firstHttpMinor
  split
  · exact Marks.fails k none _
  · exact Marks.goes _ (Or.inl h)

theorem marks_httpMinorDigit (hk : k.active = none) : Marks none (k.httpMinorDigit ch) := by
  unfold httpMinorDigit
  split
  · exact Marks.fails k none _
  · dsimp only
    split
    · exact Marks.fails _ none _
    · exact Marks.stays _ hk

theorem marks_startRes (hk : k.active = none) : Marks none (k.startRes ch) := by
  unfold startRes
  dsimp only
  split
  · exact Marks.goes_acts _ rfl (Or.inl rfl)
  · split
    · exact Marks.after (a := none) (b := none) (Marks.stays _ hk) rfl
    · exact Marks.fails _ none _

theorem marks_resFirstStatusCode (hk : k.active = none) :
    Marks none (k.resFirstStatusCode ch) := by
  unfold resFirstStatusCode
  split
  · split
    · exact Marks.stays k hk
    · exact Marks.fails k none _
  · exact Marks.goes _ (Or.inl rfl)

theorem marks_resStatusCode (hk : k.state = .resStatusCode) :
    Marks none (k.resStatusCode ch) := by
  unfold resStatusCode
  split
  · split
    · exact Marks.goes k (Or.inl rfl)
    · split
      · exact Marks.goes k (Or.inl rfl)
      · split
        · exact Marks.goes k (Or.inl rfl)
        · exact Marks.fails k none _
  · dsimp only
    split
    · exact Marks.fails _ none _
    · exact Marks.stays _ (by simp [active, resume, hk])

theorem marks_resStatusStart : Marks none (k.resStatusStart ch) := by
  unfold resStatusStart
  split
  · exact Marks.goes k (Or.inl rfl)
  · split
    · exact Marks.goes k (Or.inl rfl)
    · exact Marks.goes_acts _ rfl (Or.inl rfl)

theorem marks_resStatus (hk : k.active = some (.status k.statusCode)) :
    Marks k.active (k.resStatus ch) := by
  have hflush : follow k.active ([.flush (.status k.statusCode)] : List (Slices.Act Mark Note)) =
      some none := by
    simp [follow, hk]
  unfold resStatus
  split
  · exact Marks.goes_acts k hflush (Or.inl rfl)
  · split
    · exact Marks.goes_acts k hflush (Or.inl rfl)
    · exact Marks.stays k rfl

theorem marks_startReq (hk : k.active = none) : Marks none (k.startReq ch) := by
  unfold startReq
  split
  · exact Marks.stays k hk
  · dsimp only
    split
    · exact Marks.fails _ none _
    · split
      · exact Marks.fails _ none _
      · exact Marks.goes_acts _ rfl (Or.inl rfl)

theorem marks_reqMethod (hk : k.active = none) : Marks none (k.reqMethod ch) := by
  unfold reqMethod
  split
  · exact Marks.fails k none _
  · split
    · exact Marks.faults k none
    · split
      · exact Marks.goes _ (Or.inl rfl)
      · split
        · exact Marks.stays _ hk
        · split
          · exact Marks.fails k none _
          · exact Marks.stays _ hk

theorem parseUrlChar_active (k : HttpParser) (s : State) (c : UInt8) :
    parseUrlChar s c = .dead ∨ { k with state := parseUrlChar s c }.active = some .url := by
  generalize h : parseUrlChar s c = t
  have ht : t = .dead ∨ { k with state := t }.active = some .url := by
    revert h
    unfold parseUrlChar parseUrlChar.server
    repeat' split
    all_goals rintro rfl; first | exact Or.inl rfl | exact Or.inr rfl
  exact ht

theorem marks_urlChar {a : Option Mark} {acts : List (Slices.Act Mark Note)}
    (h : follow a acts = some (some .url)) : Marks a (k.urlChar ch acts) := by
  unfold urlChar
  dsimp only
  split
  · exact (Marks.fails _ _ _).after h
  · next hne =>
    refine Marks.goes_acts _ h (Or.inl ?_)
    rcases parseUrlChar_active k k.state ch with hdead | hurl
    · exact absurd hdead hne
    · exact hurl

theorem marks_reqSpacesBeforeUrl (hk : k.active = none) :
    Marks none (k.reqSpacesBeforeUrl ch) := by
  unfold reqSpacesBeforeUrl
  split
  · exact Marks.stays k hk
  · split
    · exact marks_urlChar ch rfl
    · exact marks_urlChar ch rfl

theorem marks_reqSchema (hk : k.active = some .url) : Marks k.active (k.reqSchema ch) := by
  unfold reqSchema
  split
  · exact Marks.fails k _ _
  · exact marks_urlChar ch (by rw [hk]; rfl)

theorem marks_reqUrl (hk : k.active = some .url) : Marks k.active (k.reqUrl ch) := by
  have hflush : follow k.active ([.flush .url] : List (Slices.Act Mark Note)) = some none := by
    rw [hk]
    rfl
  unfold reqUrl
  split
  · exact Marks.goes_acts k hflush (Or.inl rfl)
  · split
    · split
      · exact Marks.goes_acts _ hflush (Or.inl rfl)
      · exact Marks.goes_acts _ hflush (Or.inl rfl)
    · exact marks_urlChar ch (by rw [hk]; rfl)

theorem marks_reqHttpStart (hk : k.active = none) : Marks none (k.reqHttpStart ch) := by
  unfold reqHttpStart
  split
  · exact Marks.goes k (Or.inl rfl)
  · split
    · exact Marks.stays k hk
    · exact Marks.fails k none _

theorem marks_reqHttpMinor (hk : k.active = none) : Marks none (k.reqHttpMinor ch) := by
  unfold reqHttpMinor
  split
  · exact Marks.goes k (Or.inl rfl)
  · split
    · exact Marks.goes k (Or.inl rfl)
    · exact marks_httpMinorDigit ch hk

theorem marks_startReqOrRes (hk : k.active = none) : Marks none (k.startReqOrRes ch) := by
  unfold startReqOrRes
  split
  · exact Marks.stays k hk
  · dsimp only
    split
    · exact Marks.goes_acts _ rfl (Or.inl rfl)
    · exact marks_startReq ch rfl

theorem marks_resOrRespH : Marks none (k.resOrRespH ch) := by
  unfold resOrRespH
  split
  · exact Marks.goes _ (Or.inl rfl)
  · split
    · exact Marks.fails k none _
    · exact Marks.goes _ (Or.inl rfl)

theorem marks_headersDone : Marks none (k.headersDone ch) := by
  unfold headersDone
  split
  · exact Marks.fails k none _
  · dsimp only
    split
    · exact ⟨fun h => by simp at h, fun _ => rfl, rfl⟩
    · split
      · exact Marks.goes_acts _ rfl (Or.inl (newMessage_active _ _))
      · split
        · exact Marks.goes _ (Or.inl rfl)
        · split
          · exact Marks.goes_acts _ rfl (Or.inl (newMessage_active _ _))
          · split
            · exact Marks.goes _ (Or.inr ⟨rfl, rfl⟩)
            · split
              · exact Marks.goes_acts _ rfl (Or.inl (newMessage_active _ _))
              · exact Marks.goes _ (Or.inr ⟨rfl, rfl⟩)

theorem marks_headersAlmostDone : Marks none (k.headersAlmostDone ch) := by
  unfold headersAlmostDone
  split
  · exact Marks.fails k none _
  · split
    · exact Marks.goes_acts _ rfl (Or.inl (newMessage_active _ _))
    · exact (marks_headersDone ch).after rfl

theorem marks_headerFieldStart : Marks none (k.headerFieldStart ch) := by
  unfold headerFieldStart
  split
  · exact Marks.goes k (Or.inl rfl)
  · split
    · exact marks_headersAlmostDone ch
    · split
      · exact Marks.fails k none _
      · exact Marks.goes_acts _ rfl (Or.inl rfl)

theorem matching_state (c : UInt8) (string : Bytes) (h : HeaderState) :
    (k.matching c string h).state = k.state := by
  unfold matching
  dsimp only
  split
  · rfl
  · split <;> rfl

theorem active_eq {j : HttpParser} (hstate : j.state = k.state)
    (hcode : j.statusCode = k.statusCode) : j.active = k.active := by
  simp only [active, resume, hstate, hcode]

theorem active_of_state {s : State} (h : k.state = s) : k.active = { k with state := s }.active :=
  active_eq h rfl

theorem active_state {j : HttpParser} (hstate : j.state = k.state) (hk : k.state ≠ .resStatus) :
    j.active = k.active := by
  unfold active resume
  rw [hstate]
  cases hs : k.state <;> first | rfl | exact absurd hs hk

theorem marks_headerField (hk : k.state = .headerField) : Marks k.active (k.headerField ch) := by
  have hactive : k.active = some .headerField := by simp [active, resume, hk]
  have hne : k.state ≠ .resStatus := by simp [hk]
  have hflush : follow k.active ([.flush .headerField] : List (Slices.Act Mark Note)) =
      some none := by
    rw [hactive]
    rfl
  unfold headerField
  split
  · unfold headerFieldToken
    dsimp only
    split
    all_goals first
      | exact Marks.faults k _
      | exact Marks.stays _ (active_state (matching_state _ _ _) hne)
      | exact Marks.stays _ (active_state rfl hne)
      | (split <;> exact Marks.stays _ (active_state rfl hne))
  · split
    · exact Marks.goes_acts k hflush (Or.inl rfl)
    · split
      · exact Marks.goes_acts k hflush (Or.inl rfl)
      · split
        · exact Marks.goes_acts k hflush (Or.inl rfl)
        · exact Marks.fails k _ _

theorem marks_headerValueStart : Marks none (k.headerValueStart ch) := by
  have hmark : follow none ([.mark .headerValue] : List (Slices.Act Mark Note)) =
      some (some .headerValue) := rfl
  unfold headerValueStart
  dsimp only
  split
  · exact (Marks.stays _ rfl).after hmark
  · exact (Marks.stays _ rfl).after hmark
  · split
    · exact (Marks.fails _ _ _).after hmark
    · exact (Marks.stays _ rfl).after hmark
  · exact (Marks.stays _ rfl).after hmark
  · exact (Marks.stays _ rfl).after hmark

theorem marks_headerValueDiscardWs (hk : k.active = none) :
    Marks none (k.headerValueDiscardWs ch) := by
  unfold headerValueDiscardWs
  split
  · exact Marks.stays k hk
  · split
    · exact Marks.goes k (Or.inl rfl)
    · split
      · exact Marks.goes k (Or.inl rfl)
      · exact marks_headerValueStart ch

theorem marks_headerValue (hk : k.state = .headerValue) : Marks k.active (k.headerValue ch) := by
  have hactive : k.active = some .headerValue := by simp [active, resume, hk]
  have hne : k.state ≠ .resStatus := by simp [hk]
  have hflush : follow k.active ([.flush .headerValue] : List (Slices.Act Mark Note)) =
      some none := by
    rw [hactive]
    rfl
  unfold headerValue
  split
  · exact Marks.goes_acts k hflush (Or.inl rfl)
  · split
    · exact (marks_expects ch LF rfl).after hflush
    · dsimp only
      split
      case h_4 =>
        unfold contentLengthDigit
        dsimp only
        split
        · exact Marks.stays k rfl
        · split
          · exact Marks.fails k _ _
          · split
            · exact Marks.fails k _ _
            · exact Marks.stays _ (active_state rfl hne)
      all_goals first
        | exact Marks.faults k _
        | exact Marks.stays k rfl
        | exact Marks.stays _ (active_state (matching_state _ _ _) hne)
        | (split <;> exact Marks.stays _ (active_state rfl hne))
        | exact Marks.goes _ (Or.inl hactive.symm)

theorem marks_headerValueLws : Marks none (k.headerValueLws ch) := by
  unfold headerValueLws
  split
  · exact marks_headerValueStart ch
  · exact marks_headerFieldStart ch

theorem marks_headerValueDiscardLws : Marks none (k.headerValueDiscardLws ch) := by
  unfold headerValueDiscardLws
  split
  · exact Marks.goes k (Or.inl rfl)
  · exact (marks_headerFieldStart ch).after rfl

theorem marks_messageDone : Marks none k.messageDone :=
  Marks.goes_acts _ rfl (Or.inl (newMessage_active _ _))

theorem marks_bodyIdentity (hk : k.state = .bodyIdentity) :
    Marks k.active (k.bodyIdentity 1) := by
  have hactive : k.active = some .body := by simp [active, hk]
  rw [hactive]
  unfold bodyIdentity
  dsimp only
  split
  · exact Marks.faults k _
  · next hne =>
    have hread : min k.contentLength.toNat 1 - 1 = 0 := by omega
    rw [hread]
    split
    · exact marks_messageDone.after rfl
    · exact (Marks.stays _ (by simp [active, hk])).after rfl

theorem marks_chunkSizeStart : Marks none (k.chunkSizeStart ch) := by
  unfold chunkSizeStart
  split
  · exact Marks.faults k _
  · split
    · exact Marks.fails k _ _
    · exact Marks.goes _ (Or.inl rfl)

theorem marks_chunkSize (hk : k.state = .chunkSize) : Marks none (k.chunkSize ch) := by
  unfold chunkSize
  split
  · exact Marks.faults k _
  · split
    · exact Marks.goes k (Or.inl rfl)
    · split
      · split
        · exact Marks.goes k (Or.inl rfl)
        · exact Marks.fails k _ _
      · dsimp only
        split
        · exact Marks.fails k _ _
        · exact Marks.stays _ (by simp [active, resume, hk])

theorem marks_chunkParameters (hk : k.active = none) : Marks none (k.chunkParameters ch) := by
  unfold chunkParameters
  split
  · exact Marks.faults k _
  · split
    · exact Marks.goes k (Or.inl rfl)
    · exact Marks.stays k hk

theorem marks_chunkSizeAlmostDone : Marks none (k.chunkSizeAlmostDone ch) := by
  unfold chunkSizeAlmostDone
  split
  · exact Marks.faults k _
  · split
    · exact Marks.fails k _ _
    · dsimp only
      split
      · exact Marks.goes _ (Or.inl rfl)
      · exact Marks.goes _ (Or.inr ⟨rfl, rfl⟩)

theorem marks_chunkData (hk : k.state = .chunkData) : Marks k.active (k.chunkData 1) := by
  have hactive : k.active = some .body := by simp [active, hk]
  rw [hactive]
  unfold chunkData
  dsimp only
  split
  · exact Marks.faults k _
  · have hread : min k.contentLength.toNat 1 - 1 = 0 := by omega
    rw [hread]
    split
    · exact Marks.goes_acts _ rfl (Or.inl rfl)
    · exact (Marks.stays _ (by simp [active, hk])).after rfl

theorem marks_chunkDataAlmostDone (hk : k.active = some .body) :
    Marks k.active (k.chunkDataAlmostDone ch) := by
  rw [hk]
  unfold chunkDataAlmostDone
  split
  · exact Marks.faults k _
  · split
    · exact Marks.fails k _ _
    · exact Marks.goes_acts _ rfl (Or.inl rfl)

theorem marks_chunkDataDone : Marks none (k.chunkDataDone ch) := by
  unfold chunkDataDone
  split
  · exact Marks.faults k _
  · split
    · exact Marks.fails k _ _
    · exact Marks.goes _ (Or.inl rfl)

theorem marks_dead (hk : k.active = none) : Marks none (k.dead ch) := by
  unfold dead
  split
  · exact Marks.stays k hk
  · exact Marks.fails k _ _

theorem marks_switch (k : HttpParser) : Marks k.active (k.switch ch 1) := by
  cases hk : k.state <;> have hactive := active_of_state hk <;> simp only [switch, hk]
  case dead => exact hactive ▸ marks_dead ch hactive
  case startReqOrRes => exact hactive ▸ marks_startReqOrRes ch hactive
  case resOrRespH => exact hactive ▸ marks_resOrRespH ch
  case startRes => exact hactive ▸ marks_startRes ch hactive
  case resH | resHT | resHTT | resHTTP | resLineAlmostDone | reqHttpH | reqHttpHT | reqHttpHTT
    | reqHttpHTTP | headerValueDiscardWsAlmostDone | headerAlmostDone =>
    exact hactive ▸ marks_expects ch _ rfl
  case resFirstHttpMajor | reqFirstHttpMajor => exact hactive ▸ marks_firstHttpMajor ch _ rfl
  case resHttpMajor | reqHttpMajor => exact hactive ▸ marks_httpMajorDigit ch rfl hactive
  case resFirstHttpMinor | reqFirstHttpMinor => exact hactive ▸ marks_firstHttpMinor ch rfl
  case resHttpMinor =>
    rw [hactive]
    split
    · exact Marks.goes k (Or.inl rfl)
    · exact marks_httpMinorDigit ch hactive
  case resFirstStatusCode => exact hactive ▸ marks_resFirstStatusCode ch hactive
  case resStatusCode => exact hactive ▸ marks_resStatusCode ch hk
  case resStatusStart => exact hactive ▸ marks_resStatusStart ch
  case resStatus => exact marks_resStatus ch hactive
  case startReq => exact hactive ▸ marks_startReq ch hactive
  case reqMethod => exact hactive ▸ marks_reqMethod ch hactive
  case reqSpacesBeforeUrl => exact hactive ▸ marks_reqSpacesBeforeUrl ch hactive
  case reqSchema | reqSchemaSlash | reqSchemaSlashSlash | reqServerStart =>
    exact marks_reqSchema ch hactive
  case reqServer | reqServerWithAt | reqPath | reqQueryStringStart | reqQueryString
    | reqFragmentStart | reqFragment => exact marks_reqUrl ch hactive
  case reqHttpStart => exact hactive ▸ marks_reqHttpStart ch hactive
  case reqHttpMinor => exact hactive ▸ marks_reqHttpMinor ch hactive
  case reqLineAlmostDone =>
    rw [hactive]
    split
    · exact Marks.fails k _ _
    · exact Marks.goes k (Or.inl rfl)
  case headerFieldStart => exact hactive ▸ marks_headerFieldStart ch
  case headerField => exact marks_headerField ch hk
  case headerValueDiscardWs => exact hactive ▸ marks_headerValueDiscardWs ch hactive
  case headerValueDiscardLws => exact hactive ▸ marks_headerValueDiscardLws ch
  case headerValueStart => exact hactive ▸ marks_headerValueStart ch
  case headerValue => exact marks_headerValue ch hk
  case headerValueLws => exact hactive ▸ marks_headerValueLws ch
  case chunkSizeStart => exact hactive ▸ marks_chunkSizeStart ch
  case chunkSize => exact hactive ▸ marks_chunkSize ch hk
  case chunkParameters => exact hactive ▸ marks_chunkParameters ch hactive
  case chunkSizeAlmostDone => exact hactive ▸ marks_chunkSizeAlmostDone ch
  case headersAlmostDone => exact hactive ▸ marks_headersAlmostDone ch
  case headersDone => exact hactive ▸ marks_headersDone ch
  case chunkData => exact marks_chunkData hk
  case chunkDataAlmostDone => exact marks_chunkDataAlmostDone ch hactive
  case chunkDataDone => exact hactive ▸ marks_chunkDataDone ch
  case bodyIdentity => exact marks_bodyIdentity hk
  case bodyIdentityEof =>
    rw [hactive]
    exact (Marks.stays k hactive).after rfl
  case messageDone => exact hactive ▸ marks_messageDone

theorem marks_step (k : HttpParser) : Marks k.active (k.step ch 1) := by
  unfold step
  split
  · dsimp only
    split
    · exact Marks.fails _ _ _
    · exact marks_switch ch { k with nread := (k.nread + 1) % 2 ^ 32 }
  · exact marks_switch ch k

/-! ## The laws of the machine -/

theorem resume_eq_active (k : HttpParser) : k.resume = k.active ∨
    k.resume = none ∧ k.active = some .body ∧ (k.state = .bodyIdentity ∨
      k.state = .bodyIdentityEof ∨ k.state = .chunkData ∨ k.state = .chunkDataAlmostDone) := by
  unfold active
  split <;> simp_all [resume]

theorem step_body {k : HttpParser} (h : k.state.parsingHeader = false) (n : ℕ) :
    k.step ch n = k.switch ch n := by
  simp [step, h]

/-- In a body the first act marks it, or flushes it, or nothing is done. -/
theorem body_acts (hk : k.state = .bodyIdentity ∨ k.state = .bodyIdentityEof ∨
      k.state = .chunkData ∨ k.state = .chunkDataAlmostDone) :
    (∃ acts, (k.step ch 1).acts = .mark .body :: acts) ∨
      (∃ acts, (k.step ch 1).acts = .flush .body :: acts) ∨
      (k.step ch 1).acts = [] ∧ (k.step ch 1).control ≠ .next := by
  have hheader : k.state.parsingHeader = false := by
    rcases hk with hk | hk | hk | hk <;> rw [hk] <;> rfl
  rw [step_body ch hheader]
  rcases hk with hk | hk | hk | hk <;> simp only [switch, hk]
  · unfold bodyIdentity
    dsimp only
    split
    · exact Or.inr (Or.inr ⟨rfl, by simp [faults]⟩)
    · split <;> exact Or.inl ⟨_, rfl⟩
  · exact Or.inl ⟨_, rfl⟩
  · unfold chunkData
    dsimp only
    split
    · exact Or.inr (Or.inr ⟨rfl, by simp [faults]⟩)
    · split <;> exact Or.inl ⟨_, rfl⟩
  · unfold chunkDataAlmostDone
    split
    · exact Or.inr (Or.inr ⟨rfl, by simp [faults]⟩)
    · split
      · exact Or.inr (Or.inr ⟨rfl, by simp [fails]⟩)
      · exact Or.inr (Or.inl ⟨_, rfl⟩)

theorem lawful : machine.Lawful where
  next k ch := (marks_step ch k).next
  exit k ch := (marks_step ch k).exit
  stop k ch := (marks_step ch k).stop
  resume k ch := by
    rcases k.resume_eq_active with heq | ⟨hresume, hactive, hk⟩
    · exact Or.inl heq
    · exact Or.inr ⟨hresume, .body, hactive, body_acts ch hk⟩
  kinds k m hm := by
    have hactive : k.active = some m := hm
    show m ∈ [Mark.headerField, .headerValue, .url, .body, .status k.statusCode]
    unfold active resume at hactive
    repeat' split at hactive
    all_goals first | cases hactive; simp | simp at hactive
  distinct k := by
    show [Mark.headerField, .headerValue, .url, .body, .status k.statusCode].Nodup
    simp

/-- The number of bytes that are left matters where the body is advanced over. -/
theorem step_length (hk : k.state ≠ .bodyIdentity ∧ k.state ≠ .bodyIdentityEof ∧
    k.state ≠ .chunkData) (n : ℕ) : k.step ch n = k.step ch 1 := by
  have hswitch {k : HttpParser} (hk : k.state ≠ .bodyIdentity ∧ k.state ≠ .bodyIdentityEof ∧
      k.state ≠ .chunkData) : k.switch ch n = k.switch ch 1 := by
    unfold switch
    split <;> simp_all
  unfold step
  rw [hswitch hk]
  split
  · dsimp only
    rw [hswitch (k := { k with nread := (k.nread + 1) % 2 ^ 32 }) hk]
  · rfl

open Slices.Machine in
theorem perform_body (data : Bytes) (t : Slices.Tape UInt8 Mark Note) (i : ℕ)
    (acts : List (Slices.Act Mark Note)) :
    t.perform data ([.mark .body, .advance (i + 1)] ++ acts) =
      (t.perform data [.mark .body, .advance 1]).perform data
        ([.mark .body, .advance i] ++ acts) := by
  rw [perform_append, perform_append, Nat.add_comm, advance_advance]

def readBody (done : HttpParser → Reaction) (k : HttpParser) (n : ℕ) : Reaction :=
  let toRead := min k.contentLength.toNat n
  let j := { k with contentLength := k.contentLength - UInt64.ofNat toRead }
  Reaction.after (if j.contentLength = 0 then done j else j.stays)
    [.mark .body, .advance (toRead - 1)]

theorem bodyIdentity_eq (k : HttpParser) (n : ℕ) : k.bodyIdentity n =
    if k.contentLength = 0 ∨ k.contentLength = ULLONG_MAX then k.faults
    else readBody (fun j => { j with state := .messageDone }.messageDone.after [.flushLast .body])
      k n := by
  unfold bodyIdentity readBody
  dsimp only
  congr 1
  split <;> rfl

theorem chunkData_eq (k : HttpParser) (n : ℕ) : k.chunkData n =
    if !k.flags.chunked ∨ k.contentLength = 0 ∨ k.contentLength = ULLONG_MAX then k.faults
    else readBody (fun j => j.goes .chunkDataAlmostDone []) k n := by
  unfold chunkData readBody
  dsimp only
  congr 1
  split <;> rfl

theorem toNat_sub_ofNat {c : UInt64} {n : ℕ} (h : n ≤ c.toNat) :
    (c - UInt64.ofNat n).toNat = c.toNat - n := by
  have hlt := c.toNat_lt
  have hn : (UInt64.ofNat n).toNat = n := UInt64.toNat_ofNat_of_lt' (Nat.lt_of_le_of_lt h hlt)
  rw [UInt64.toNat_sub_of_le _ _ (UInt64.le_iff_toNat_le.mpr (by omega)), hn]

/-- All of `n + 2` bytes, or the first one and then the others. -/
theorem readBody_bulk (done : HttpParser → Reaction) {k : HttpParser}
    (h : 2 ≤ k.contentLength.toNat) (n : ℕ) :
    readBody done k 1 = (stays { k with contentLength := k.contentLength - 1 }).after
        [.mark .body, .advance 0] ∧
      (readBody done k (n + 2)).state =
        (readBody done { k with contentLength := k.contentLength - 1 } (n + 1)).state ∧
      (readBody done k (n + 2)).control =
        (readBody done { k with contentLength := k.contentLength - 1 } (n + 1)).control ∧
      ∀ (data : Bytes) (t : Slices.Tape UInt8 Mark Note),
        t.perform data (readBody done k (n + 2)).acts =
          (t.perform data [.mark .body, .advance 1]).perform data
            (readBody done { k with contentLength := k.contentLength - 1 } (n + 1)).acts := by
  have hpred : (k.contentLength - 1).toNat = k.contentLength.toNat - 1 :=
    toNat_sub_ofNat (n := 1) (by omega)
  have hne : k.contentLength - 1 ≠ 0 := by
    intro heq
    rw [heq] at hpred
    simp at hpred
    omega
  have hone : min k.contentLength.toNat 1 = 1 := by omega
  have hmore : min k.contentLength.toNat (n + 2) =
      min (k.contentLength - 1).toNat (n + 1) + 1 := by omega
  have hleft : k.contentLength - UInt64.ofNat (min (k.contentLength - 1).toNat (n + 1) + 1) =
      k.contentLength - 1 - UInt64.ofNat (min (k.contentLength - 1).toNat (n + 1)) := by
    apply UInt64.toNat_inj.mp
    rw [toNat_sub_ofNat (by omega), toNat_sub_ofNat (by omega)]
    omega
  have hpos : min (k.contentLength - 1).toNat (n + 1) + 1 - 1 =
      min (k.contentLength - 1).toNat (n + 1) - 1 + 1 := by omega
  refine ⟨?_, ?_, ?_, fun data t => ?_⟩
  · simp only [readBody, hone]
    exact congrArg (Reaction.after · _) (if_neg hne)
  · simp only [readBody, hmore, hleft]
    rfl
  · simp only [readBody, hmore, hleft]
    rfl
  · simp only [readBody, hmore, hleft, hpos, Reaction.after]
    exact perform_body data t _ _

/-- The two bodies with a length: `hs` is what the switch does in the state, and `fault` where an
assertion fails. -/
theorem bulk_readBody {k : HttpParser} (ch : UInt8) (done : HttpParser → Reaction)
    (hs : ∀ (c : UInt64) (y : UInt8) (n : ℕ), c ≠ 0 → c ≠ ULLONG_MAX →
      { k with contentLength := c }.step y n = readBody done { k with contentLength := c } n)
    (hzero : k.contentLength ≠ 0) (hmax : k.contentLength ≠ ULLONG_MAX) (y : UInt8) (n : ℕ) :
    k.step ch (n + 2) = k.step ch 1 ∨ (k.step ch 1).control = .next ∧
      (k.step ch 1).acts = [.mark .body, .advance 0] ∧
      (k.step ch (n + 2)).state = ((k.step ch 1).state.step y (n + 1)).state ∧
      (k.step ch (n + 2)).control = ((k.step ch 1).state.step y (n + 1)).control ∧
      ∀ (data : Bytes) (t : Slices.Tape UInt8 Mark Note),
        t.perform data (k.step ch (n + 2)).acts =
          (t.perform data [.mark .body, .advance 1]).perform data
            ((k.step ch 1).state.step y (n + 1)).acts := by
  have hstep (y : UInt8) (n : ℕ) : k.step y n = readBody done k n := hs _ y n hzero hmax
  rw [hstep, hstep]
  by_cases hone : k.contentLength.toNat = 1
  · refine Or.inl ?_
    simp only [readBody, hone]
    rw [Nat.min_eq_left (by omega), Nat.min_eq_left (by omega)]
  · have hne : k.contentLength.toNat ≠ 0 := fun h => hzero (UInt64.toNat_inj.mp h)
    have hlt := k.contentLength.toNat_lt
    have hpred : (k.contentLength - 1).toNat = k.contentLength.toNat - 1 :=
      toNat_sub_ofNat (n := 1) (by omega)
    obtain ⟨hfirst, hstate, hcontrol, hperform⟩ := readBody_bulk done (k := k) (by omega) n
    have hnext : (readBody done k 1).state.step y (n + 1) =
        readBody done { k with contentLength := k.contentLength - 1 } (n + 1) := by
      rw [hfirst]
      refine hs _ y (n + 1) (fun h => ?_) fun h => ?_
      · rw [h] at hpred
        simp at hpred
        omega
      · rw [h] at hpred
        have : ULLONG_MAX.toNat = 2 ^ 64 - 1 := rfl
        omega
    refine Or.inr ⟨?_, ?_, ?_, ?_, fun data t => ?_⟩
    · rw [hfirst]
      rfl
    · rw [hfirst]
      rfl
    · rw [hnext, hstate]
    · rw [hnext, hcontrol]
    · rw [hnext, hperform]

theorem bulk : machine.Bulk := by
  intro k ch y n
  show k.step ch (n + 2) = k.step ch 1 ∨ _
  by_cases hlength : k.state ≠ .bodyIdentity ∧ k.state ≠ .bodyIdentityEof ∧ k.state ≠ .chunkData
  · exact Or.inl (step_length ch hlength (n + 2))
  · have hcases : k.state = .bodyIdentity ∨ k.state = .bodyIdentityEof ∨ k.state = .chunkData := by
      by_contra hnot
      simp only [not_or] at hnot
      exact hlength hnot
    rcases hcases with hk | hk | hk
    · have hstep {j : HttpParser} (hj : j.state = .bodyIdentity) (c : UInt8) (n : ℕ) :
          j.step c n = j.bodyIdentity n := by
        rw [step_body c (by rw [hj]; rfl)]
        simp only [switch, hj]
      by_cases hfault : k.contentLength = 0 ∨ k.contentLength = ULLONG_MAX
      · refine Or.inl ?_
        rw [hstep hk, hstep hk, bodyIdentity_eq, bodyIdentity_eq, if_pos hfault, if_pos hfault]
      · rw [not_or] at hfault
        have hs (c : UInt64) (y : UInt8) (n : ℕ) (hzero : c ≠ 0) (hmax : c ≠ ULLONG_MAX) :
            { k with contentLength := c }.step y n =
              readBody (fun j => { j with state := .messageDone }.messageDone.after
                [.flushLast .body]) { k with contentLength := c } n := by
          rw [hstep (j := { k with contentLength := c }) hk, bodyIdentity_eq,
            if_neg (by simp [hzero, hmax])]
        exact (bulk_readBody ch _ hs hfault.1 hfault.2 y n).imp_right
          fun h => ⟨h.1, .body, h.2⟩
    · have hstep {j : HttpParser} (hj : j.state = .bodyIdentityEof) (c : UInt8) (n : ℕ) :
          j.step c n = j.bodyIdentityEof n := by
        rw [step_body c (by rw [hj]; rfl)]
        simp only [switch, hj]
      have hfirst : machine.step k ch 1 = k.bodyIdentityEof 1 := hstep hk ch 1
      have hmore : machine.step k ch (n + 2) = k.bodyIdentityEof (n + 2) := hstep hk ch (n + 2)
      have hnext : machine.step (k.bodyIdentityEof 1).state y (n + 1) = k.bodyIdentityEof (n + 1) :=
        hstep hk y (n + 1)
      refine Or.inr ?_
      rw [hfirst, hmore, hnext]
      exact ⟨rfl, .body, rfl, rfl, rfl, fun data t => perform_body data t n []⟩
    · have hstep {j : HttpParser} (hj : j.state = .chunkData) (c : UInt8) (n : ℕ) :
          j.step c n = j.chunkData n := by
        rw [step_body c (by rw [hj]; rfl)]
        simp only [switch, hj]
      by_cases hfault : !k.flags.chunked ∨ k.contentLength = 0 ∨ k.contentLength = ULLONG_MAX
      · refine Or.inl ?_
        rw [hstep hk, hstep hk, chunkData_eq, chunkData_eq, if_pos hfault, if_pos hfault]
      · simp only [not_or] at hfault
        have hs (c : UInt64) (y : UInt8) (n : ℕ) (hzero : c ≠ 0) (hmax : c ≠ ULLONG_MAX) :
            { k with contentLength := c }.step y n =
              readBody (fun j => j.goes .chunkDataAlmostDone []) { k with contentLength := c } n := by
          rw [hstep (j := { k with contentLength := c }) hk, chunkData_eq,
            if_neg (by simpa [hzero, hmax] using hfault.1)]
        exact (bulk_readBody ch _ hs hfault.2.1 hfault.2.2 y n).imp_right
          fun h => ⟨h.1, .body, h.2⟩

end HttpParser

end Hwnet.Http
