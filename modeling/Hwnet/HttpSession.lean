import Hwnet.HttpPacket

set_option autoImplicit false

/-!
# HTTP sessions

The bundled parser is known by the callbacks it makes. A packet outlives the session's pointer to
it, in the request or response it was handed out with, so the packets are kept in a list and
`packet` is a place in it.
-/
namespace Hwnet.Http

structure Parser where
  statusCode : UInt16
  httpMajor : UInt16
  httpMinor : UInt16
  deriving DecidableEq, Repr

inductive Side where
  | ClientSide
  | ServerSide
  deriving DecidableEq, Repr

/-- `body` without bytes is the call with a null pointer. -/
inductive Event where
  | request (cb : Callback) (packet : ℕ)
  | response (cb : Callback) (packet : ℕ)
  | body (cb : Callback) (bytes : Option Bytes)
  deriving DecidableEq, Repr

structure HttpSession where
  side : Side
  onRequest : Option Callback
  onResponse : Option Callback
  packets : List HttpPacket
  packet : Option ℕ
  log : List Event

/-- A callback of the parser. `method` and `statusCode` are what the memory of a new packet holds,
`onBody` is what the user's callback gives the packet. -/
inductive Call where
  | messageBegin (method statusCode : UInt32)
  | url (at_ : Bytes)
  | status (at_ : Bytes)
  | headerField (at_ : Bytes)
  | headerValue (at_ : Bytes)
  | headersComplete (onBody : Option Callback)
  | body (at_ : Bytes)
  | messageComplete
  deriving DecidableEq, Repr

namespace HttpSession

def current (s : HttpSession) : Option HttpPacket := s.packet.bind fun p => s.packets[p]?

def onPacket (s : HttpSession) (f : HttpPacket → HttpPacket) : Option HttpSession :=
  s.packet.map fun p => { s with packets := s.packets.modify p f }

def onMessageBegin (s : HttpSession) (method statusCode : UInt32) : HttpSession :=
  { s with
    packets := s.packets ++ [HttpPacket.new method statusCode]
    packet := some s.packets.length }

/-- An empty function cannot be called. -/
def onHeadersComplete (s : HttpSession) (parser : Parser) (onBody : Option Callback) :
    Option HttpSession := do
  let s ← s.onPacket fun k => k.onHeadersComplete parser.httpMajor parser.httpMinor
  let p ← s.packet
  let event ←
    match s.side with
    | .ServerSide => s.onRequest.map (Event.request · p)
    | .ClientSide => s.onResponse.map (Event.response · p)
  let s ← s.onPacket fun k => { k with onBody }
  return { s with log := s.log ++ [event] }

def callBody (s : HttpSession) (bytes : Option Bytes) : Option HttpSession := do
  let k ← s.current
  match k.onBody with
  | some cb => return { s with log := s.log ++ [.body cb bytes] }
  | none => return s

def onMessageComplete (s : HttpSession) : Option HttpSession := do
  let s ← s.callBody none
  return { s with packet := none }

def handle (parser : Parser) (s : HttpSession) : Call → Option HttpSession
  | .messageBegin method statusCode => some (s.onMessageBegin method statusCode)
  | .url at_ => s.onPacket (·.onUrl at_)
  | .status at_ => s.onPacket (·.onStatus at_ parser.statusCode.toUInt32)
  | .headerField at_ => s.onPacket (·.onHeaderField at_)
  | .headerValue at_ => s.onPacket (·.onHeaderValue at_)
  | .headersComplete onBody => s.onHeadersComplete parser onBody
  | .body at_ => s.callBody (some at_)
  | .messageComplete => s.onMessageComplete

/-- The callbacks of one message; each field of the parser is read once it holds its value. -/
def run (parser : Parser) (s : HttpSession) (calls : List Call) : Option HttpSession :=
  calls.foldlM (handle parser) s

end HttpSession

/-! ## A header block and its delivery -/

structure Message where
  url : Bytes
  status : Bytes
  headers : List (Bytes × Bytes)
  deriving DecidableEq, Repr

/-- The pieces in which the parser hands out each string of a header block. -/
structure Delivery where
  url : List Bytes
  status : List Bytes
  headers : List (List Bytes × List Bytes)
  deriving DecidableEq, Repr

namespace Delivery

def message (d : Delivery) : Message where
  url := d.url.flatten
  status := d.status.flatten
  headers := d.headers.map fun h => (h.1.flatten, h.2.flatten)

def data (d : Delivery) : List Call :=
  d.url.map .url ++ d.status.map .status ++
    d.headers.flatMap fun h => h.1.map .headerField ++ h.2.map .headerValue

def calls (d : Delivery) (method statusCode : UInt32) (onBody : Option Callback) : List Call :=
  .messageBegin method statusCode :: (d.data ++ [.headersComplete onBody])

end Delivery

namespace HttpPacket

def onHeader (k : HttpPacket) (h : List Bytes × List Bytes) : HttpPacket :=
  h.2.foldl onHeaderValue (h.1.foldl onHeaderField k)

def onData (k : HttpPacket) (parser : Parser) (d : Delivery) : HttpPacket :=
  d.headers.foldl onHeader
    (d.status.foldl (·.onStatus · parser.statusCode.toUInt32) (d.url.foldl onUrl k))

end HttpPacket

namespace HttpSession

variable (parser : Parser) {s : HttpSession} {k : HttpPacket}

def callback (s : HttpSession) : Option Callback :=
  match s.side with
  | .ServerSide => s.onRequest
  | .ClientSide => s.onResponse

structure Receiving (s : HttpSession) (k : HttpPacket) : Prop where
  current : s.current = some k
  ready : s.callback ≠ none

theorem Receiving.onPacket (h : s.Receiving k) (f : HttpPacket → HttpPacket) :
    ∃ t : HttpSession, s.onPacket f = some t ∧ t.Receiving (f k) := by
  obtain ⟨p, hp, hk⟩ := Option.bind_eq_some_iff.mp h.current
  refine ⟨{ s with packets := s.packets.modify p f }, ?_, ?_, h.ready⟩
  · simp [HttpSession.onPacket, hp]
  · simp [HttpSession.current, hp, hk]

theorem Receiving.run_map {α : Type} (h : s.Receiving k) (call : α → Call)
    (f : HttpPacket → α → HttpPacket)
    (works : ∀ (s : HttpSession) (a : α), handle parser s (call a) = s.onPacket (f · a))
    (l : List α) :
    ∃ t : HttpSession, run parser s (l.map call) = some t ∧ t.Receiving (l.foldl f k) := by
  induction l generalizing s k with
  | nil => exact ⟨s, rfl, h⟩
  | cons a l ih =>
    obtain ⟨u, hu, hreceiving⟩ := h.onPacket (f · a)
    obtain ⟨t, ht, hlast⟩ := ih hreceiving
    refine ⟨t, ?_, hlast⟩
    simp only [run, List.map_cons, List.foldlM_cons, works, hu] at ht ⊢
    exact ht

theorem run_append (cs ds : List Call) :
    run parser s (cs ++ ds) = (run parser s cs).bind (run parser · ds) := by
  simp only [run, List.foldlM_append, Option.bind_eq_bind]

theorem Receiving.run_header (h : s.Receiving k) (x : List Bytes × List Bytes) :
    ∃ t : HttpSession,
      run parser s (x.1.map .headerField ++ x.2.map .headerValue) = some t ∧
      t.Receiving (k.onHeader x) := by
  obtain ⟨u, hu, hfields⟩ := h.run_map parser .headerField .onHeaderField (fun _ _ => rfl) x.1
  obtain ⟨t, ht, hvalues⟩ := hfields.run_map parser .headerValue .onHeaderValue (fun _ _ => rfl) x.2
  refine ⟨t, ?_, hvalues⟩
  rw [run_append, hu, Option.bind_some, ht]

theorem Receiving.run_headers (h : s.Receiving k) (l : List (List Bytes × List Bytes)) :
    ∃ t : HttpSession,
      run parser s (l.flatMap fun x => x.1.map .headerField ++ x.2.map .headerValue) = some t ∧
      t.Receiving (l.foldl HttpPacket.onHeader k) := by
  induction l generalizing s k with
  | nil => exact ⟨s, rfl, h⟩
  | cons x l ih =>
    obtain ⟨u, hu, hreceiving⟩ := h.run_header parser x
    obtain ⟨t, ht, hlast⟩ := ih hreceiving
    exact ⟨t, by rw [List.flatMap_cons, run_append, hu, Option.bind_some, ht], hlast⟩

theorem Receiving.run_data (h : s.Receiving k) (d : Delivery) :
    ∃ t : HttpSession, run parser s d.data = some t ∧ t.Receiving (k.onData parser d) := by
  obtain ⟨u, hu, hurl⟩ := h.run_map parser .url .onUrl (fun _ _ => rfl) d.url
  obtain ⟨v, hv, hstatus⟩ := hurl.run_map parser .status
    (·.onStatus · parser.statusCode.toUInt32) (fun _ _ => rfl) d.status
  obtain ⟨t, ht, hheaders⟩ := hstatus.run_headers parser d.headers
  refine ⟨t, ?_, hheaders⟩
  rw [Delivery.data, run_append, run_append, hu, Option.bind_some, hv, Option.bind_some, ht]

theorem Receiving.headersComplete (h : s.Receiving k) (onBody : Option Callback) :
    ∃ t : HttpSession, s.onHeadersComplete parser onBody = some t ∧ t.current =
      some { k.onHeadersComplete parser.httpMajor parser.httpMinor with onBody } := by
  obtain ⟨u, hu, hcomplete⟩ := h.onPacket (·.onHeadersComplete parser.httpMajor parser.httpMinor)
  obtain ⟨p, hp, -⟩ := Option.bind_eq_some_iff.mp hcomplete.current
  obtain ⟨v, hv, hlast⟩ := hcomplete.onPacket fun k => { k with onBody }
  obtain ⟨cb, hcb⟩ := Option.ne_none_iff_exists'.mp hcomplete.ready
  unfold callback at hcb
  cases hside : u.side <;> rw [hside] at hcb
  · refine ⟨{ v with log := v.log ++ [.response cb p] }, ?_, hlast.current⟩
    simp [HttpSession.onHeadersComplete, hu, hp, hv, hside, hcb]
  · refine ⟨{ v with log := v.log ++ [.request cb p] }, ?_, hlast.current⟩
    simp [HttpSession.onHeadersComplete, hu, hp, hv, hside, hcb]

theorem messageBegin_receiving (ready : s.callback ≠ none) (method statusCode : UInt32) :
    (s.onMessageBegin method statusCode).Receiving (HttpPacket.new method statusCode) :=
  ⟨by simp [onMessageBegin, current], ready⟩

/-- At the end of the header block the packet is that of the data callbacks. -/
theorem run_calls (ready : s.callback ≠ none) (d : Delivery) (method statusCode : UInt32)
    (onBody : Option Callback) : ∃ t : HttpSession,
    run parser s (d.calls method statusCode onBody) = some t ∧ t.current =
      some { ((HttpPacket.new method statusCode).onData parser d).onHeadersComplete
        parser.httpMajor parser.httpMinor with onBody } := by
  have hbegin := messageBegin_receiving ready method statusCode
  obtain ⟨u, hu, hdata⟩ := hbegin.run_data parser d
  obtain ⟨t, ht, hcurrent⟩ := hdata.headersComplete parser onBody
  refine ⟨t, ?_, hcurrent⟩
  have hlast : run parser u [.headersComplete onBody] = some t := by
    simp [run, handle, ht]
  have hrest := run_append parser (s := s.onMessageBegin method statusCode) d.data
    [.headersComplete onBody]
  rw [hu, Option.bind_some, hlast] at hrest
  exact hrest

end HttpSession

end Hwnet.Http
