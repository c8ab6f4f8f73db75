import Hwnet.HttpParser

set_option autoImplicit false

/-!
# One byte of the parser

The switch of `http_parser_execute`. Where the source jumps back to the switch with the same byte,
the code of the state it has set is called. The callbacks all return zero, as those of a session do.
-/
namespace Hwnet.Http

open Slices (Act)

abbrev Reaction := Slices.Reaction HttpParser Mark Note

def Reaction.after (r : Reaction) (acts : List (Act Mark Note)) : Reaction :=
  { r with acts := acts ++ r.acts }

namespace HttpParser

variable (k : HttpParser) (ch : UInt8)

def goes (s : State) (acts : List (Act Mark Note)) : Reaction := ⟨{ k with state := s }, acts, .next⟩

def stays : Reaction := ⟨k, [], .next⟩

def fails (e : HttpErrno) : Reaction := ⟨{ k with httpErrno := e }, [], .error⟩

/-- An assertion that fails or a read beyond a string. -/
def faults : Reaction := ⟨k, [], .fault⟩

def expects (c : UInt8) (s : State) : Reaction :=
  if ch ≠ c then k.fails .strict else k.goes s []

/-! ## The version and the status line -/

/-- One more digit of a number of at most three. -/
def digit (n : UInt16) (ch : UInt8) : UInt16 := n * 10 + (ch - 0x30).toUInt16

def firstHttpMajor (low : UInt8) (s : State) : Reaction :=
  if ch < low ∨ 0x39 < ch then k.fails .invalidVersion
  else { k with httpMajor := (ch - 0x30).toUInt16 }.goes s []

def httpMajorDigit (s : State) : Reaction :=
  if ch = 0x2e then k.goes s []
  else if !isNum ch then k.fails .invalidVersion
  else
    let k := { k with httpMajor := digit k.httpMajor ch }
    if 999 < k.httpMajor then k.fails .invalidVersion else k.stays

def firstHttpMinor (s : State) : Reaction :=
  if !isNum ch then k.fails .invalidVersion
  else { k with httpMinor := (ch - 0x30).toUInt16 }.goes s []

def httpMinorDigit : Reaction :=
  if !isNum ch then k.fails .invalidVersion
  else
    let k := { k with httpMinor := digit k.httpMinor ch }
    if 999 < k.httpMinor then k.fails .invalidVersion else k.stays

def startRes : Reaction :=
  let k := { k with flags := {}, contentLength := ULLONG_MAX }
  if ch = 0x48 then k.goes .resH [.note .messageBegin]
  else if ch = CR ∨ ch = LF then k.stays.after [.note .messageBegin]
  else k.fails .invalidConstant

def resFirstStatusCode : Reaction :=
  if !isNum ch then if ch = SP then k.stays else k.fails .invalidStatus
  else { k with statusCode := (ch - 0x30).toUInt16 }.goes .resStatusCode []

def resStatusCode : Reaction :=
  if !isNum ch then
    if ch = SP then k.goes .resStatusStart []
    else if ch = CR then k.goes .resLineAlmostDone []
    else if ch = LF then k.goes .headerFieldStart []
    else k.fails .invalidStatus
  else
    let k := { k with statusCode := digit k.statusCode ch }
    if 999 < k.statusCode then k.fails .invalidStatus else k.stays

def resStatusStart : Reaction :=
  if ch = CR then k.goes .resLineAlmostDone []
  else if ch = LF then k.goes .headerFieldStart []
  else { k with index := 0 }.goes .resStatus [.mark (.status k.statusCode)]

def resStatus : Reaction :=
  if ch = CR then k.goes .resLineAlmostDone [.flush (.status k.statusCode)]
  else if ch = LF then k.goes .headerFieldStart [.flush (.status k.statusCode)]
  else k.stays

/-! ## The request line -/

def firstMethod (ch : UInt8) : Option HttpMethod :=
  if ch = 0x43 then some .connect
  else if ch = 0x44 then some .delete
  else if ch = 0x47 then some .get
  else if ch = 0x48 then some .head
  else if ch = 0x4c then some .lock
  else if ch = 0x4d then some .mkcol
  else if ch = 0x4e then some .notify
  else if ch = 0x4f then some .options
  else if ch = 0x50 then some .post
  else if ch = 0x52 then some .report
  else if ch = 0x53 then some .subscribe
  else if ch = 0x54 then some .trace
  else if ch = 0x55 then some .unlock
  else none

def startReq : Reaction :=
  if ch = CR ∨ ch = LF then k.stays
  else
    let k := { k with flags := {}, contentLength := ULLONG_MAX }
    if !isAlpha ch then k.fails .invalidMethod
    else
      let k := { k with method := .delete, index := 1 }
      match firstMethod ch with
      | none => k.fails .invalidMethod
      | some m => { k with method := m }.goes .reqMethod [.note .messageBegin]

def otherMethod (m : HttpMethod) (index : ℕ) (ch : UInt8) : Option HttpMethod :=
  if m = .connect then
    if index = 1 ∧ ch = 0x48 then some .checkout
    else if index = 2 ∧ ch = 0x50 then some .copy
    else none
  else if m = .mkcol then
    if index = 1 ∧ ch = 0x4f then some .move
    else if index = 1 ∧ ch = 0x45 then some .merge
    else if index = 1 ∧ ch = 0x2d then some .msearch
    else if index = 2 ∧ ch = 0x41 then some .mkactivity
    else if index = 3 ∧ ch = 0x41 then some .mkcalendar
    else none
  else if m = .subscribe then
    if index = 1 ∧ ch = 0x45 then some .search else none
  else if index = 1 ∧ m = .post then
    if ch = 0x52 then some .propfind
    else if ch = 0x55 then some .put
    else if ch = 0x41 then some .patch
    else none
  else if index = 2 then
    if m = .put then if ch = 0x52 then some .purge else none
    else if m = .unlock then if ch = 0x53 then some .unsubscribe else none
    else none
  else if index = 4 ∧ m = .propfind ∧ ch = 0x50 then some .proppatch
  else none

/-- The string ends with a zero byte, behind which nothing may be read. -/
def reqMethod : Reaction :=
  if ch = NUL then k.fails .invalidMethod
  else
    match (k.method.string ++ [NUL])[k.index]? with
    | none => k.faults
    | some c =>
      if ch = SP ∧ c = NUL then { k with index := (k.index + 1) % 256 }.goes .reqSpacesBeforeUrl []
      else if ch = c then { k with index := (k.index + 1) % 256 }.stays
      else
        match otherMethod k.method k.index ch with
        | none => k.fails .invalidMethod
        | some m => { k with method := m, index := (k.index + 1) % 256 }.stays

def urlChar (acts : List (Act Mark Note)) : Reaction :=
  let k := { k with state := parseUrlChar k.state ch }
  if k.state = .dead then (k.fails .invalidUrl).after acts else k.goes k.state acts

def reqSpacesBeforeUrl : Reaction :=
  if ch = SP then k.stays
  else if k.method = .connect then { k with state := .reqServerStart }.urlChar ch [.mark .url]
  else k.urlChar ch [.mark .url]

/-- Up to the server no space is allowed. -/
def reqSchema : Reaction :=
  if ch = SP ∨ ch = CR ∨ ch = LF then k.fails .invalidUrl else k.urlChar ch []

def reqUrl : Reaction :=
  if ch = SP then k.goes .reqHttpStart [.flush .url]
  else if ch = CR ∨ ch = LF then
    { k with httpMajor := 0, httpMinor := 9 }.goes
      (if ch = CR then .reqLineAlmostDone else .headerFieldStart) [.flush .url]
  else k.urlChar ch []

def reqHttpStart : Reaction :=
  if ch = 0x48 then k.goes .reqHttpH []
  else if ch = SP then k.stays
  else k.fails .invalidConstant

def reqHttpMinor : Reaction :=
  if ch = CR then k.goes .reqLineAlmostDone []
  else if ch = LF then k.goes .headerFieldStart []
  else k.httpMinorDigit ch

def startReqOrRes : Reaction :=
  if ch = CR ∨ ch = LF then k.stays
  else
    let k := { k with flags := {}, contentLength := ULLONG_MAX }
    if ch = 0x48 then k.goes .resOrRespH [.note .messageBegin]
    else { k with type := .request, state := .startReq }.startReq ch

def resOrRespH : Reaction :=
  if ch = 0x54 then { k with type := .response }.goes .resHT []
  else if ch ≠ 0x45 then k.fails .invalidConstant
  else { k with type := .request, method := .head, index := 2 }.goes .reqMethod []

/-! ## The headers -/

def CONNECTION : Bytes := ascii "connection"
def PROXY_CONNECTION : Bytes := ascii "proxy-connection"
def CONTENT_LENGTH : Bytes := ascii "content-length"
def TRANSFER_ENCODING : Bytes := ascii "transfer-encoding"
def UPGRADE : Bytes := ascii "upgrade"
def CHUNKED : Bytes := ascii "chunked"
def KEEP_ALIVE : Bytes := ascii "keep-alive"
def CLOSE : Bytes := ascii "close"

/-- The next byte of a string that ends in a zero byte, and the state after the last one. -/
def matching (c : UInt8) (string : Bytes) (h : HeaderState) : HttpParser :=
  let k := { k with index := (k.index + 1) % 256 }
  if string.length < k.index ∨ (string ++ [NUL])[k.index]? ≠ some c then
    { k with headerState := .general }
  else if k.index = string.length - 1 then { k with headerState := h }
  else k

def headersDone : Reaction :=
  if ch ≠ LF then k.fails .strict
  else
    let k := { k with nread := 0 }
    if k.upgrade then ⟨{ k with state := k.newMessage }, [.note .messageComplete], .exit⟩
    else if k.flags.skipbody then k.goes k.newMessage [.note .messageComplete]
    else if k.flags.chunked then k.goes .chunkSizeStart []
    else if k.contentLength = 0 then k.goes k.newMessage [.note .messageComplete]
    else if k.contentLength ≠ ULLONG_MAX then k.goes .bodyIdentity []
    else if k.type = .request || !k.messageNeedsEof then
      k.goes k.newMessage [.note .messageComplete]
    else k.goes .bodyIdentityEof []

def headersAlmostDone : Reaction :=
  if ch ≠ LF then k.fails .strict
  else if k.flags.trailing then k.goes k.newMessage [.note .messageComplete]
  else
    let k := { k with
      state := .headersDone
      upgrade := k.flags.upgrade || k.method = HttpMethod.connect }
    (k.headersDone ch).after [.note (.headersComplete k.httpMajor k.httpMinor)]

def firstHeaderState (c : UInt8) : HeaderState :=
  if c = 0x63 then .C
  else if c = 0x70 then .matchingProxyConnection
  else if c = 0x74 then .matchingTransferEncoding
  else if c = 0x75 then .matchingUpgrade
  else .general

def headerFieldStart : Reaction :=
  if ch = CR then k.goes .headersAlmostDone []
  else if ch = LF then { k with state := .headersAlmostDone }.headersAlmostDone ch
  else if token ch = 0 then k.fails .invalidHeaderToken
  else
    { k with index := 0, headerState := firstHeaderState (token ch) }.goes .headerField
      [.mark .headerField]

def headerFieldToken : Reaction :=
  let c := token ch
  match k.headerState with
  | .general => k.stays
  | .C => { k with
      index := (k.index + 1) % 256
      headerState := if c = 0x6f then .CO else .general }.stays
  | .CO => { k with
      index := (k.index + 1) % 256
      headerState := if c = 0x6e then .CON else .general }.stays
  | .CON => { k with
      index := (k.index + 1) % 256
      headerState :=
        if c = 0x6e then .matchingConnection
        else if c = 0x74 then .matchingContentLength
        else .general }.stays
  | .matchingConnection => (k.matching c CONNECTION .connection).stays
  | .matchingProxyConnection => (k.matching c PROXY_CONNECTION .connection).stays
  | .matchingContentLength => (k.matching c CONTENT_LENGTH .contentLength).stays
  | .matchingTransferEncoding => (k.matching c TRANSFER_ENCODING .transferEncoding).stays
  | .matchingUpgrade => (k.matching c UPGRADE .upgrade).stays
  | .connection | .contentLength | .transferEncoding | .upgrade =>
    (if ch ≠ SP then { k with headerState := .general } else k).stays
  | _ => k.faults

def headerField : Reaction :=
  if token ch ≠ 0 then k.headerFieldToken ch
  else if ch = colon then k.goes .headerValueDiscardWs [.flush .headerField]
  else if ch = CR then k.goes .headerAlmostDone [.flush .headerField]
  else if ch = LF then k.goes .headerFieldStart [.flush .headerField]
  else k.fails .invalidHeaderToken

def headerValueStart : Reaction :=
  let k := { k with state := .headerValue, index := 0 }
  let c := lower ch
  match k.headerState with
  | .upgrade =>
    { k with flags := { k.flags with upgrade := true }, headerState := .general }.stays.after
      [.mark .headerValue]
  | .transferEncoding =>
    { k with
      headerState := if c = 0x63 then .matchingTransferEncodingChunked else .general }.stays.after
      [.mark .headerValue]
  | .contentLength =>
    if !isNum ch then (k.fails .invalidContentLength).after [.mark .headerValue]
    else { k with contentLength := (ch - 0x30).toUInt64 }.stays.after [.mark .headerValue]
  | .connection =>
    { k with
      headerState :=
        if c = 0x6b then .matchingConnectionKeepAlive
        else if c = 0x63 then .matchingConnectionClose
        else .general }.stays.after [.mark .headerValue]
  | _ => { k with headerState := .general }.stays.after [.mark .headerValue]

def headerValueDiscardWs : Reaction :=
  if ch = SP ∨ ch = HT then k.stays
  else if ch = CR then k.goes .headerValueDiscardWsAlmostDone []
  else if ch = LF then k.goes .headerValueDiscardLws []
  else k.headerValueStart ch

/-- The overflow is looked for after the product was taken, with a limit below the real one. -/
def contentLengthDigit : Reaction :=
  if ch = SP then k.stays
  else if !isNum ch then k.fails .invalidContentLength
  else
    let t := k.contentLength * 10 + (ch - 0x30).toUInt64
    if (ULLONG_MAX - 10) / 10 < k.contentLength then k.fails .invalidContentLength
    else { k with contentLength := t }.stays

def headerAlmostDone : Reaction := k.expects ch LF .headerValueLws

def headerValue : Reaction :=
  if ch = CR then k.goes .headerAlmostDone [.flush .headerValue]
  else if ch = LF then
    ({ k with state := .headerAlmostDone }.headerAlmostDone ch).after [.flush .headerValue]
  else
    let c := lower ch
    match k.headerState with
    | .general => k.stays
    | .connection | .transferEncoding => k.faults
    | .contentLength => k.contentLengthDigit ch
    | .matchingTransferEncodingChunked => (k.matching c CHUNKED .transferEncodingChunked).stays
    | .matchingConnectionKeepAlive => (k.matching c KEEP_ALIVE .connectionKeepAlive).stays
    | .matchingConnectionClose => (k.matching c CLOSE .connectionClose).stays
    | .transferEncodingChunked | .connectionKeepAlive | .connectionClose =>
      (if ch ≠ SP then { k with headerState := .general } else k).stays
    | _ => { k with headerState := .general }.goes .headerValue []

def headerFlags (k : HttpParser) : Flags :=
  match k.headerState with
  | .connectionKeepAlive => { k.flags with connectionKeepAlive := true }
  | .connectionClose => { k.flags with connectionClose := true }
  | .transferEncodingChunked => { k.flags with chunked := true }
  | _ => k.flags

def headerValueLws : Reaction :=
  if ch = SP ∨ ch = HT then { k with state := .headerValueStart }.headerValueStart ch
  else { k with flags := k.headerFlags, state := .headerFieldStart }.headerFieldStart ch

def headerValueDiscardLws : Reaction :=
  if ch = SP ∨ ch = HT then k.goes .headerValueDiscardWs []
  else
    ({ k with state := .headerFieldStart }.headerFieldStart ch).after
      [.mark .headerValue, .flush .headerValue]

/-! ## The body -/

def messageDone : Reaction := k.goes k.newMessage [.note .messageComplete]

/-- `n` bytes are left, the current one included. -/
def bodyIdentity (n : ℕ) : Reaction :=
  let toRead := min k.contentLength.toNat n
  if k.contentLength = 0 ∨ k.contentLength = ULLONG_MAX then k.faults
  else
    let k := { k with contentLength := k.contentLength - UInt64.ofNat toRead }
    if k.contentLength = 0 then
      { k with state := .messageDone }.messageDone.after
        [.mark .body, .advance (toRead - 1), .flushLast .body]
    else k.stays.after [.mark .body, .advance (toRead - 1)]

def bodyIdentityEof (n : ℕ) : Reaction := k.stays.after [.mark .body, .advance (n - 1)]

def chunkSizeStart : Reaction :=
  if k.nread ≠ 1 ∨ !k.flags.chunked then k.faults
  else
    match unhex ch with
    | none => k.fails .invalidChunkSize
    | some v => { k with contentLength := v.toUInt64 }.goes .chunkSize []

def chunkSize : Reaction :=
  if !k.flags.chunked then k.faults
  else if ch = CR then k.goes .chunkSizeAlmostDone []
  else
    match unhex ch with
    | none =>
      if ch = 0x3b ∨ ch = SP then k.goes .chunkParameters [] else k.fails .invalidChunkSize
    | some v =>
      let t := k.contentLength * 16 + v.toUInt64
      if (ULLONG_MAX - 16) / 16 < k.contentLength then k.fails .invalidContentLength
      else { k with contentLength := t }.stays

def chunkParameters : Reaction :=
  if !k.flags.chunked then k.faults
  else if ch = CR then k.goes .chunkSizeAlmostDone []
  else k.stays

def chunkSizeAlmostDone : Reaction :=
  if !k.flags.chunked then k.faults
  else if ch ≠ LF then k.fails .strict
  else
    let k := { k with nread := 0 }
    if k.contentLength = 0 then
      { k with flags := { k.flags with trailing := true } }.goes .headerFieldStart []
    else k.goes .chunkData []

def chunkData (n : ℕ) : Reaction :=
  let toRead := min k.contentLength.toNat n
  if !k.flags.chunked ∨ k.contentLength = 0 ∨ k.contentLength = ULLONG_MAX then k.faults
  else
    let k := { k with contentLength := k.contentLength - UInt64.ofNat toRead }
    if k.contentLength = 0 then k.goes .chunkDataAlmostDone [.mark .body, .advance (toRead - 1)]
    else k.stays.after [.mark .body, .advance (toRead - 1)]

def chunkDataAlmostDone : Reaction :=
  if !k.flags.chunked ∨ k.contentLength ≠ 0 then k.faults
  else if ch ≠ CR then k.fails .strict
  else k.goes .chunkDataDone [.flush .body]

def chunkDataDone : Reaction :=
  if !k.flags.chunked then k.faults
  else if ch ≠ LF then k.fails .strict
  else { k with nread := 0 }.goes .chunkSizeStart []

/-! ## The switch -/

def dead : Reaction := if ch = CR ∨ ch = LF then k.stays else k.fails .closedConnection

def switch (n : ℕ) : Reaction :=
  match k.state with
  | .dead => k.dead ch
  | .startReqOrRes => k.startReqOrRes ch
  | .resOrRespH => k.resOrRespH ch
  | .startRes => k.startRes ch
  | .resH => k.expects ch 0x54 .resHT
  | .resHT => k.expects ch 0x54 .resHTT
  | .resHTT => k.expects ch 0x50 .resHTTP
  | .resHTTP => k.expects ch 0x2f .resFirstHttpMajor
  | .resFirstHttpMajor => k.firstHttpMajor ch 0x30 .resHttpMajor
  | .resHttpMajor => k.httpMajorDigit ch .resFirstHttpMinor
  | .resFirstHttpMinor => k.firstHttpMinor ch .resHttpMinor
  | .resHttpMinor => if ch = SP then k.goes .resFirstStatusCode [] else k.httpMinorDigit ch
  | .resFirstStatusCode => k.resFirstStatusCode ch
  | .resStatusCode => k.resStatusCode ch
  | .resStatusStart => k.resStatusStart ch
  | .resStatus => k.resStatus ch
  | .resLineAlmostDone => k.expects ch LF .headerFieldStart
  | .startReq => k.startReq ch
  | .reqMethod => k.reqMethod ch
  | .reqSpacesBeforeUrl => k.reqSpacesBeforeUrl ch
  | .reqSchema | .reqSchemaSlash | .reqSchemaSlashSlash | .reqServerStart => k.reqSchema ch
  | .reqServer | .reqServerWithAt | .reqPath | .reqQueryStringStart | .reqQueryString
  | .reqFragmentStart | .reqFragment => k.reqUrl ch
  | .reqHttpStart => k.reqHttpStart ch
  | .reqHttpH => k.expects ch 0x54 .reqHttpHT
  | .reqHttpHT => k.expects ch 0x54 .reqHttpHTT
  | .reqHttpHTT => k.expects ch 0x50 .reqHttpHTTP
  | .reqHttpHTTP => k.expects ch 0x2f .reqFirstHttpMajor
  | .reqFirstHttpMajor => k.firstHttpMajor ch 0x31 .reqHttpMajor
  | .reqHttpMajor => k.httpMajorDigit ch .reqFirstHttpMinor
  | .reqFirstHttpMinor => k.firstHttpMinor ch .reqHttpMinor
  | .reqHttpMinor => k.reqHttpMinor ch
  | .reqLineAlmostDone => if ch ≠ LF then k.fails .lfExpected else k.goes .headerFieldStart []
  | .headerFieldStart => k.headerFieldStart ch
  | .headerField => k.headerField ch
  | .headerValueDiscardWs => k.headerValueDiscardWs ch
  | .headerValueDiscardWsAlmostDone => k.expects ch LF .headerValueDiscardLws
  | .headerValueDiscardLws => k.headerValueDiscardLws ch
  | .headerValueStart => k.headerValueStart ch
  | .headerValue => k.headerValue ch
  | .headerValueLws => k.headerValueLws ch
  | .headerAlmostDone => k.headerAlmostDone ch
  | .chunkSizeStart => k.chunkSizeStart ch
  | .chunkSize => k.chunkSize ch
  | .chunkParameters => k.chunkParameters ch
  | .chunkSizeAlmostDone => k.chunkSizeAlmostDone ch
  | .headersAlmostDone => k.headersAlmostDone ch
  | .headersDone => k.headersDone ch
  | .chunkData => k.chunkData n
  | .chunkDataAlmostDone => k.chunkDataAlmostDone ch
  | .chunkDataDone => k.chunkDataDone ch
  | .bodyIdentity => k.bodyIdentity n
  | .bodyIdentityEof => k.bodyIdentityEof n
  | .messageDone => k.messageDone

/-- A byte of a header is counted first. -/
def step (n : ℕ) : Reaction :=
  if k.state.parsingHeader then
    let k := { k with nread := (k.nread + 1) % 2 ^ 32 }
    if HTTP_MAX_HEADER_SIZE < k.nread then k.fails .headerOverflow else k.switch ch n
  else k.switch ch n

end HttpParser

end Hwnet.Http
