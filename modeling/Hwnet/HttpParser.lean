import Hwnet.HttpPacket
import Hwnet.Slices
import Mathlib.Algebra.GroupWithZero.Nat

set_option autoImplicit false

/-!
# The state of the bundled parser

`http_parser` in its strict build. A `char` is a byte here: where one is compared as a signed number,
those from 0x80 up fail the comparison either way.
-/
namespace Hwnet.Http

inductive HttpMethod where
  | delete
  | get
  | head
  | post
  | put
  | connect
  | options
  | trace
  | copy
  | lock
  | mkcol
  | move
  | propfind
  | proppatch
  | search
  | unlock
  | report
  | mkactivity
  | checkout
  | merge
  | msearch
  | notify
  | subscribe
  | unsubscribe
  | patch
  | purge
  | mkcalendar
  deriving DecidableEq, Repr

def HttpMethod.string (m : HttpMethod) : Bytes := methodStrings.getD m.ctorIdx []

inductive ParserType where
  | request
  | response
  | both
  deriving DecidableEq, Repr

inductive State where
  | dead
  | startReqOrRes
  | resOrRespH
  | startRes
  | resH
  | resHT
  | resHTT
  | resHTTP
  | resFirstHttpMajor
  | resHttpMajor
  | resFirstHttpMinor
  | resHttpMinor
  | resFirstStatusCode
  | resStatusCode
  | resStatusStart
  | resStatus
  | resLineAlmostDone
  | startReq
  | reqMethod
  | reqSpacesBeforeUrl
  | reqSchema
  | reqSchemaSlash
  | reqSchemaSlashSlash
  | reqServerStart
  | reqServer
  | reqServerWithAt
  | reqPath
  | reqQueryStringStart
  | reqQueryString
  | reqFragmentStart
  | reqFragment
  | reqHttpStart
  | reqHttpH
  | reqHttpHT
  | reqHttpHTT
  | reqHttpHTTP
  | reqFirstHttpMajor
  | reqHttpMajor
  | reqFirstHttpMinor
  | reqHttpMinor
  | reqLineAlmostDone
  | headerFieldStart
  | headerField
  | headerValueDiscardWs
  | headerValueDiscardWsAlmostDone
  | headerValueDiscardLws
  | headerValueStart
  | headerValue
  | headerValueLws
  | headerAlmostDone
  | chunkSizeStart
  | chunkSize
  | chunkParameters
  | chunkSizeAlmostDone
  | headersAlmostDone
  | headersDone
  | chunkData
  | chunkDataAlmostDone
  | chunkDataDone
  | bodyIdentity
  | bodyIdentityEof
  | messageDone
  deriving DecidableEq, Repr

def State.parsingHeader : State → Bool
  | .chunkData | .chunkDataAlmostDone | .chunkDataDone | .bodyIdentity | .bodyIdentityEof
  | .messageDone => false
  | _ => true

inductive HeaderState where
  | general
  | C
  | CO
  | CON
  | matchingConnection
  | matchingProxyConnection
  | matchingContentLength
  | matchingTransferEncoding
  | matchingUpgrade
  | connection
  | contentLength
  | transferEncoding
  | upgrade
  | matchingTransferEncodingChunked
  | matchingConnectionKeepAlive
  | matchingConnectionClose
  | transferEncodingChunked
  | connectionKeepAlive
  | connectionClose
  deriving DecidableEq, Repr

/-- Those that a parser without failing callbacks can set. -/
inductive HttpErrno where
  | ok
  | invalidEofState
  | headerOverflow
  | closedConnection
  | invalidVersion
  | invalidStatus
  | invalidMethod
  | invalidUrl
  | lfExpected
  | invalidHeaderToken
  | invalidContentLength
  | invalidChunkSize
  | invalidConstant
  | strict
  deriving DecidableEq, Repr

structure Flags where
  chunked : Bool := false
  connectionKeepAlive : Bool := false
  connectionClose : Bool := false
  trailing : Bool := false
  upgrade : Bool := false
  skipbody : Bool := false
  deriving DecidableEq, Repr

/-- `index` indexes the string that is being matched. -/
structure HttpParser where
  type : ParserType
  flags : Flags
  state : State
  headerState : HeaderState
  index : ℕ
  nread : ℕ
  contentLength : UInt64
  httpMajor : UInt16
  httpMinor : UInt16
  statusCode : UInt16
  method : HttpMethod
  httpErrno : HttpErrno
  upgrade : Bool
  deriving DecidableEq, Repr

/-- The data callbacks; `on_status` reads the status code of the parser. -/
inductive Mark where
  | headerField
  | headerValue
  | url
  | body
  | status (statusCode : UInt16)
  deriving DecidableEq, Repr

/-- The other callbacks; `on_headers_complete` reads the version. -/
inductive Note where
  | messageBegin
  | headersComplete (httpMajor httpMinor : UInt16)
  | messageComplete
  deriving DecidableEq, Repr

def HTTP_MAX_HEADER_SIZE : ℕ := 80 * 1024
def ULLONG_MAX : UInt64 := 0xffffffffffffffff

/-! ## Characters -/

def NUL : UInt8 := 0
def HT : UInt8 := 0x09
def FF : UInt8 := 0x0c

/-- LOWER, which also changes characters that are no letters. -/
def lower (c : UInt8) : UInt8 := c ||| 0x20

def isAlpha (c : UInt8) : Bool := 0x61 ≤ lower c && lower c ≤ 0x7a
def isNum (c : UInt8) : Bool := 0x30 ≤ c && c ≤ 0x39
def isAlphanum (c : UInt8) : Bool := isAlpha c || isNum c
def isMark (c : UInt8) : Bool := c ∈ ascii "-_.!~*'()"
def isUserinfoChar (c : UInt8) : Bool := isAlphanum c || isMark c || c ∈ ascii "%;:&=+$,"

/-- `tokens`, which has zero for what is no token. -/
def token (c : UInt8) : UInt8 :=
  if isAlpha c then lower c
  else if isNum c || c ∈ ascii "!#$%&'*+-.^_`|~" then c
  else 0

def isUrlChar (c : UInt8) : Bool := 0x21 ≤ c && c ≤ 0x7e && c ∉ ascii "#?"

/-- `unhex`. Its initializer ends at 0x7f, so what comes after is zero. -/
def unhex (c : UInt8) : Option UInt8 :=
  if isNum c then some (c - 0x30)
  else if 0x61 ≤ lower c && lower c ≤ 0x66 then some (lower c - 0x57)
  else if 0x80 ≤ c then some 0
  else none

def parseUrlChar (s : State) (ch : UInt8) : State :=
  if ch = SP ∨ ch = CR ∨ ch = LF then .dead
  else if ch = HT ∨ ch = FF then .dead
  else
    match s with
    | .reqSpacesBeforeUrl =>
      if ch = 0x2f ∨ ch = 0x2a then .reqPath
      else if isAlpha ch then .reqSchema
      else .dead
    | .reqSchema =>
      if isAlpha ch then .reqSchema
      else if ch = colon then .reqSchemaSlash
      else .dead
    | .reqSchemaSlash => if ch = 0x2f then .reqSchemaSlashSlash else .dead
    | .reqSchemaSlashSlash => if ch = 0x2f then .reqServerStart else .dead
    | .reqServerWithAt => if ch = 0x40 then .dead else server ch
    | .reqServerStart | .reqServer => server ch
    | .reqPath =>
      if isUrlChar ch then .reqPath
      else if ch = 0x3f then .reqQueryStringStart
      else if ch = 0x23 then .reqFragmentStart
      else .dead
    | .reqQueryStringStart | .reqQueryString =>
      if isUrlChar ch then .reqQueryString
      else if ch = 0x3f then .reqQueryString
      else if ch = 0x23 then .reqFragmentStart
      else .dead
    | .reqFragmentStart =>
      if isUrlChar ch then .reqFragment
      else if ch = 0x3f then .reqFragment
      else if ch = 0x23 then .reqFragmentStart
      else .dead
    | .reqFragment =>
      if isUrlChar ch then .reqFragment
      else if ch = 0x3f ∨ ch = 0x23 then .reqFragment
      else .dead
    | _ => .dead
where
  server (ch : UInt8) : State :=
    if ch = 0x2f then .reqPath
    else if ch = 0x3f then .reqQueryStringStart
    else if ch = 0x40 then .reqServerWithAt
    else if isUserinfoChar ch || ch = 0x5b || ch = 0x5d then .reqServer
    else .dead

namespace HttpParser

/-- `http_parser_init`, after which the method is the first of the table. -/
def init (t : ParserType) : HttpParser where
  type := t
  flags := {}
  state :=
    match t with
    | .request => .startReq
    | .response => .startRes
    | .both => .startReqOrRes
  headerState := .general
  index := 0
  nread := 0
  contentLength := 0
  httpMajor := 0
  httpMinor := 0
  statusCode := 0
  method := .delete
  httpErrno := .ok
  upgrade := false

def startState (k : HttpParser) : State := if k.type = .request then .startReq else .startRes

def messageNeedsEof (k : HttpParser) : Bool :=
  if k.type = .request then false
  else if k.statusCode / 100 = 1 || k.statusCode = 204 || k.statusCode = 304 || k.flags.skipbody then
    false
  else if k.flags.chunked || k.contentLength ≠ ULLONG_MAX then false
  else true

def shouldKeepAlive (k : HttpParser) : Bool :=
  if 0 < k.httpMajor ∧ 0 < k.httpMinor then
    if k.flags.connectionClose then false else !k.messageNeedsEof
  else
    if !k.flags.connectionKeepAlive then false else !k.messageNeedsEof

def newMessage (k : HttpParser) : State := if k.shouldKeepAlive then k.startState else .dead

end HttpParser

end Hwnet.Http
