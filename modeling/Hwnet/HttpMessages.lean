import Hwnet.HttpHeaders

set_option autoImplicit false

/-!
# Whole messages

A message is a header block, a body and perhaps a trailer. While a session receives one, its packet
is the last one that was made, so the session is known from the one before the message.
-/
namespace Hwnet.Http

/-- How the end of a body is found. Where there is no body, its length is zero. With an Upgrade
header, or for CONNECT, the parser stops behind the head, and `rest` is the body it has not read;
with a chunk line or trailers beyond HTTP_MAX_HEADER_SIZE it stops before the end of the message.
`headOnly` is the answer to a HEAD, or a 304, whose head announces a body: the parser takes what
follows for it. -/
inductive Framing where
  | contentLength
  | chunked (trailers : List (List Bytes × List Bytes))
  | untilClose
  | upgrade (rest : Bytes)
  | overflow (rest : Bytes)
  | headOnly (complete : Bool)
  deriving DecidableEq, Repr

def Framing.trailers : Framing → List (List Bytes × List Bytes)
  | .chunked trailers => trailers
  | .contentLength | .untilClose | .upgrade _ | .overflow _ | .headOnly _ => []

/-- The end of a body that lasts until the close is known to the parser only when it is told of
the close. -/
def Framing.complete : Framing → List Call
  | .untilClose | .overflow _ | .headOnly false => []
  | .contentLength | .chunked _ | .upgrade _ | .headOnly true => [.messageComplete]

theorem Framing.complete_cases (f : Framing) :
    f.complete = [] ∨ f.complete = [.messageComplete] := by
  cases f with
  | untilClose | overflow => exact .inl rfl
  | contentLength | chunked | upgrade => exact .inr rfl
  | headOnly complete =>
    cases complete with
    | false => exact .inl rfl
    | true => exact .inr rfl

/-- A message in the pieces in which the parser hands it out; `body` is what it hands out as the
body. `method` and `statusCode` are what the
memory of its packet holds, `onBody` is what the user's callback gives the packet. -/
structure Incoming where
  parser : Parser
  head : Delivery
  body : List Bytes
  framing : Framing
  method : UInt32
  statusCode : UInt32
  onBody : Option Callback

namespace Incoming

def headCalls (m : Incoming) : List Call := m.head.calls m.method m.statusCode m.onBody

/-- A second header block follows the last chunk, without an end of its own. -/
def calls (m : Incoming) : List Call :=
  m.headCalls ++ m.body.map .body ++
    (m.framing.trailers.flatMap fun h => h.1.map .headerField ++ h.2.map .headerValue) ++
    m.framing.complete

def serve (s : HttpSession) (m : Incoming) : Option HttpSession := s.run m.parser m.calls

def received (m : Incoming) : HttpPacket :=
  { ((HttpPacket.new m.method m.statusCode).onData m.parser m.head).onHeadersComplete
      m.parser.httpMajor m.parser.httpMinor with onBody := m.onBody }

def completed (m : Incoming) : HttpPacket := m.framing.trailers.foldl .onHeader m.received

def bodyEvents (m : Incoming) : List Event :=
  match m.onBody with
  | none => []
  | some cb =>
    m.body.map (fun bytes => .body cb (some bytes)) ++ m.framing.complete.map fun _ => .body cb none

end Incoming

namespace HttpPacket

theorem flush_onBody (k : HttpPacket) : k.flush.onBody = k.onBody := by
  unfold flush
  split <;> rfl

theorem headers_onBody (l : List (List Bytes × List Bytes)) (k : HttpPacket) :
    (l.foldl onHeader k).onBody = k.onBody :=
  headers_keep HttpPacket.onBody (fun k _ => flush_onBody k) (fun _ _ => rfl) l k

end HttpPacket

namespace HttpSession

variable {parser : Parser} {s : HttpSession} {k : HttpPacket} {log : List Event}

def receiving (s : HttpSession) (k : HttpPacket) (log : List Event) : HttpSession :=
  { s with packets := s.packets ++ [k], packet := some s.packets.length, log }

def announce (s : HttpSession) (cb : Callback) (p : ℕ) : Event :=
  match s.side with
  | .ServerSide => .request cb p
  | .ClientSide => .response cb p

theorem receiving_onPacket (f : HttpPacket → HttpPacket) :
    (s.receiving k log).onPacket f = some (s.receiving (f k) log) := by
  have hmodify : (s.packets ++ [k]).modify s.packets.length f = s.packets ++ [f k] := by
    rw [List.modify_eq_set_getElem?]
    simp
  simp [onPacket, receiving, hmodify]

theorem receiving_current : (s.receiving k log).current = some k := by
  simp [current, receiving]

theorem receiving_callBody (bytes : Option Bytes) : (s.receiving k log).callBody bytes =
    some (s.receiving k (log ++ k.onBody.toList.map (Event.body · bytes))) := by
  simp only [callBody, receiving_current, Option.bind_eq_bind, Option.bind_some]
  cases k.onBody with
  | none => simp [receiving]
  | some cb => rfl

theorem receiving_headersComplete {cb : Callback} (ready : s.callback = some cb)
    (onBody : Option Callback) : (s.receiving k log).onHeadersComplete parser onBody =
      some (s.receiving { k.onHeadersComplete parser.httpMajor parser.httpMinor with onBody }
        (log ++ [s.announce cb s.packets.length])) := by
  have hside {k : HttpPacket} : (s.receiving k log).side = s.side := rfl
  have hrequest {k : HttpPacket} : (s.receiving k log).onRequest = s.onRequest := rfl
  have hresponse {k : HttpPacket} : (s.receiving k log).onResponse = s.onResponse := rfl
  have hpacket {k : HttpPacket} : (s.receiving k log).packet = some s.packets.length := rfl
  unfold callback at ready
  simp only [onHeadersComplete, receiving_onPacket, hpacket, hside, hrequest, hresponse, announce,
    Option.bind_eq_bind, Option.bind_some]
  cases hs : s.side <;> rw [hs] at ready <;> simp [ready, receiving, hs]

theorem receiving_run_map {α : Type} (call : α → Call) (f : HttpPacket → α → HttpPacket)
    (works : ∀ (s : HttpSession) (a : α), handle parser s (call a) = s.onPacket (f · a))
    (l : List α) : (s.receiving k log).run parser (l.map call) =
      some (s.receiving (l.foldl f k) log) := by
  induction l generalizing k with
  | nil => rfl
  | cons a l ih =>
    rw [run, List.map_cons, List.foldlM_cons, works, receiving_onPacket]
    exact ih

theorem receiving_run_headers (l : List (List Bytes × List Bytes)) :
    (s.receiving k log).run parser
        (l.flatMap fun h => h.1.map .headerField ++ h.2.map .headerValue) =
      some (s.receiving (l.foldl .onHeader k) log) := by
  induction l generalizing k with
  | nil => rfl
  | cons h l ih =>
    rw [List.flatMap_cons, run_append, run_append,
      receiving_run_map .headerField .onHeaderField (fun _ _ => rfl), Option.bind_some,
      receiving_run_map .headerValue .onHeaderValue (fun _ _ => rfl), Option.bind_some]
    exact ih

theorem receiving_run_data (d : Delivery) : (s.receiving k log).run parser d.data =
    some (s.receiving (k.onData parser d) log) := by
  rw [Delivery.data, run_append, run_append, receiving_run_map .url .onUrl (fun _ _ => rfl),
    Option.bind_some, receiving_run_map .status (·.onStatus · parser.statusCode.toUInt32)
      (fun _ _ => rfl), Option.bind_some, receiving_run_headers]
  rfl

theorem receiving_run_body (body : List Bytes) : (s.receiving k log).run parser (body.map .body) =
    some (s.receiving k (log ++ body.flatMap fun bytes =>
      k.onBody.toList.map (Event.body · (some bytes)))) := by
  induction body generalizing log with
  | nil => simp [run]
  | cons bytes body ih =>
    rw [run, List.map_cons, List.foldlM_cons]
    show (s.receiving k log).callBody (some bytes) >>= _ = _
    rw [receiving_callBody, List.flatMap_cons, ← List.append_assoc]
    exact ih

theorem run_head {cb : Callback} (ready : s.callback = some cb) (m : Incoming) :
    s.run m.parser m.headCalls =
      some (s.receiving m.received (s.log ++ [s.announce cb s.packets.length])) := by
  have hbegin : handle m.parser s (.messageBegin m.method m.statusCode) =
      some (s.receiving (HttpPacket.new m.method m.statusCode) s.log) := rfl
  have hlast : (s.receiving ((HttpPacket.new m.method m.statusCode).onData m.parser m.head)
      s.log).run m.parser [.headersComplete m.onBody] =
        some (s.receiving m.received (s.log ++ [s.announce cb s.packets.length])) := by
    rw [run, List.foldlM_cons, handle, receiving_headersComplete ready]
    rfl
  rw [Incoming.headCalls, Delivery.calls, run, List.foldlM_cons, hbegin]
  show HttpSession.run _ _ _ = _
  rw [run_append, receiving_run_data, Option.bind_some, hlast]

/-- The session after a message. Where the end is not known, the packet stays. -/
def after (s : HttpSession) (cb : Callback) (m : Incoming) : HttpSession :=
  { s with
    packets := s.packets ++ [m.completed]
    packet := if m.framing.complete = [] then some s.packets.length else none
    log := s.log ++ s.announce cb s.packets.length :: m.bodyEvents }

theorem run_message {cb : Callback} (ready : s.callback = some cb) (m : Incoming) :
    m.serve s = some (s.after cb m) := by
  have hbody : m.received.onBody = m.onBody := rfl
  have hbody' : m.completed.onBody = m.onBody := HttpPacket.headers_onBody _ _
  rw [Incoming.serve, Incoming.calls, run_append, run_append, run_append, run_head ready,
    Option.bind_some, receiving_run_body, Option.bind_some, receiving_run_headers,
    Option.bind_some]
  show (s.receiving m.completed _).run m.parser m.framing.complete = _
  have hevents : (m.body.flatMap fun bytes =>
      m.received.onBody.toList.map (Event.body · (some bytes))) ++
        (if m.framing.complete = [] then [] else m.completed.onBody.toList.map
          (Event.body · none)) = m.bodyEvents := by
    rw [hbody, hbody', Incoming.bodyEvents]
    have hflat (cb : Callback) : (m.body.flatMap fun bytes => [Event.body cb (some bytes)]) =
        m.body.map fun bytes => .body cb (some bytes) := List.flatMap_pure_eq_map ..
    rcases m.framing.complete_cases with h | h <;> cases m.onBody <;> simp [h, hflat]
  rcases m.framing.complete_cases with h | h
  · rw [h] at hevents
    simp only [if_true, List.append_nil] at hevents
    simp [run, after, receiving, h, hevents]
  · rw [h] at hevents
    simp only [reduceCtorEq, if_false] at hevents
    simp only [run, h, List.foldlM_cons, handle, onMessageComplete, receiving_callBody,
      Option.bind_eq_bind, Option.bind_some, List.append_assoc, hevents]
    simp [after, receiving, h]

theorem run_messages {cb : Callback} (ready : s.callback = some cb) (ms : List Incoming) :
    ms.foldlM Incoming.serve s = some (ms.foldl (·.after cb ·) s) := by
  induction ms generalizing s with
  | nil => rfl
  | cons m ms ih =>
    rw [List.foldlM_cons, run_message ready]
    exact ih ready

theorem afterAll_callback (cb : Callback) (ms : List Incoming) :
    (ms.foldl (·.after cb ·) s).callback = s.callback := by
  induction ms generalizing s with
  | nil => rfl
  | cons m ms ih => exact ih

def client (onResponse : Callback) : HttpSession :=
  ⟨.ClientSide, none, some onResponse, [], none, []⟩

end HttpSession

end Hwnet.Http
