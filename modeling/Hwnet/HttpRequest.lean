import Hwnet.HttpHeaders

set_option autoImplicit false

/-!
# The request line of a request

The callbacks copy the target, the status and the version from the parser into the packet. None
of them copies the method.
-/
namespace Hwnet.Http

structure HttpRequest where
  packet : HttpPacket

namespace HttpRequest

/-- A method past the end of the table is read from beyond it. -/
def getMethod (q : HttpRequest) : Option Bytes := methodStrings[q.packet.method.toNat]?

def url (q : HttpRequest) : Bytes := q.packet.url

end HttpRequest

structure RequestLine where
  method : Fin methodStrings.length
  target : Bytes
  httpMajor : UInt16
  httpMinor : UInt16

/-- What the parser hands out after the header block: the body, and the headers of a trailer. -/
inductive Part where
  | body (at_ : Bytes)
  | field (at_ : Bytes)
  | value (at_ : Bytes)

def Part.call : Part → Call
  | .body at_ => .body at_
  | .field at_ => .headerField at_
  | .value at_ => .headerValue at_

/-- A request in the pieces in which the parser hands it out. `method` and `statusCode` are what
the memory of its packet holds, `onBody` is what the user's callback gives the packet. -/
structure Request where
  line : RequestLine
  url : List Bytes
  headers : List (List Bytes × List Bytes)
  parts : List Part
  method : UInt32
  statusCode : UInt32
  onBody : Option Callback
  target : url.flatten = line.target

namespace Request

def parser (r : Request) : Parser := ⟨0, r.line.httpMajor, r.line.httpMinor⟩

def delivery (r : Request) : Delivery := ⟨r.url, [], r.headers⟩

def head (r : Request) : List Call := r.delivery.calls r.method r.statusCode r.onBody

def tail (r : Request) : List Call := r.parts.map Part.call ++ [.messageComplete]

def serve (s : HttpSession) (r : Request) : Option HttpSession :=
  s.run r.parser (r.head ++ r.tail)

end Request

namespace HttpSession

def server (onRequest : Callback) : HttpSession := ⟨.ServerSide, some onRequest, none, [], none, []⟩

def handed (s : HttpSession) (r : Request) : Option HttpRequest := do
  let t ← s.run r.parser r.head
  match t.log.getLast? with
  | some (.request _ p) => (t.packets[p]?).map HttpRequest.mk
  | _ => none

end HttpSession

structure HttpRequest.Carries (q : HttpRequest) (line : RequestLine) : Prop where
  method : q.getMethod = some (methodStrings.get line.method)
  url : q.url = line.target
  httpMajor : q.packet.httpMajor = line.httpMajor
  httpMinor : q.packet.httpMinor = line.httpMinor

/-! ## The packet -/

namespace HttpPacket

theorem flush_method (k : HttpPacket) : k.flush.method = k.method := by
  unfold flush
  split <;> rfl

theorem headers_method (l : List (List Bytes × List Bytes)) (k : HttpPacket) :
    (l.foldl onHeader k).method = k.method :=
  headers_keep HttpPacket.method (fun k _ => flush_method k) (fun _ _ => rfl) l k

def received (r : Request) : HttpPacket :=
  { ((HttpPacket.new r.method r.statusCode).onData r.parser r.delivery).onHeadersComplete
      r.line.httpMajor r.line.httpMinor with onBody := r.onBody }

theorem received_method (r : Request) : (received r).method = r.method := by
  have hdata : ((HttpPacket.new r.method r.statusCode).onData r.parser r.delivery).method =
      r.method := by
    unfold onData
    rw [headers_method, urls_eq]
    rfl
  exact (flush_method _).trans hdata

theorem received_url (r : Request) : (received r).url = r.line.target := by
  have hdata : ((HttpPacket.new r.method r.statusCode).onData r.parser r.delivery).url =
      r.line.target := by
    unfold onData
    rw [(headers_frame _).1, urls_eq]
    exact r.target
  exact (flush_frame _).1.trans hdata

/-- All of the line but the method, which is what the memory held. -/
theorem received_carries_iff (r : Request) :
    HttpRequest.Carries ⟨received r⟩ r.line ↔ r.method.toNat = r.line.method := by
  have hmethod : HttpRequest.getMethod ⟨received r⟩ = methodStrings[r.method.toNat]? := by
    rw [HttpRequest.getMethod, received_method]
  constructor
  · intro h
    have hsame : methodStrings[r.method.toNat]? = methodStrings[r.line.method.val]? := by
      rw [← hmethod, h.method, List.get_eq_getElem, List.getElem?_eq_getElem]
    have hdistinct : methodStrings.Nodup := by decide
    exact ((List.getElem?_inj r.line.method.isLt hdistinct).mp hsame.symm).symm
  · intro h
    refine ⟨?_, received_url r, rfl, rfl⟩
    rw [hmethod, h, List.get_eq_getElem, List.getElem?_eq_getElem]

end HttpPacket

/-! ## Requests on a connection -/

namespace HttpSession

variable {parser : Parser} {s t : HttpSession}

structure Serving (s : HttpSession) (cb : Callback) : Prop where
  side : s.side = .ServerSide
  ready : s.onRequest = some cb

theorem Serving.callback {cb : Callback} (h : s.Serving cb) : s.callback ≠ none := by
  rw [HttpSession.callback, h.side]
  exact fun hnone => by cases h.ready.symm.trans hnone

theorem Serving.onPacket {cb : Callback} {f : HttpPacket → HttpPacket} (h : s.Serving cb)
    (hstep : s.onPacket f = some t) : t.Serving cb := by
  obtain ⟨p, -, rfl⟩ := Option.map_eq_some_iff.mp hstep
  exact ⟨h.side, h.ready⟩

theorem Serving.callBody {cb : Callback} {bytes : Option Bytes} (h : s.Serving cb)
    (hstep : s.callBody bytes = some t) : t.Serving cb := by
  obtain ⟨k, -, hk⟩ := Option.bind_eq_some_iff.mp hstep
  split at hk <;> cases hk <;> exact ⟨h.side, h.ready⟩

/-- At the end of a header block the callback is called with the packet. -/
theorem Serving.onHeadersComplete {cb : Callback} {onBody : Option Callback} (h : s.Serving cb)
    (hstep : s.onHeadersComplete parser onBody = some t) :
    t.Serving cb ∧ ∃ p, t.packet = some p ∧ t.log = s.log ++ [.request cb p] := by
  cases hp : s.packet with
  | none => simp [HttpSession.onHeadersComplete, HttpSession.onPacket, hp] at hstep
  | some p =>
    simp only [HttpSession.onHeadersComplete, HttpSession.onPacket, hp, h.side, h.ready,
      Option.map_some, Option.bind_eq_bind, Option.bind_some, Option.pure_def,
      Option.some.injEq] at hstep
    subst hstep
    exact ⟨⟨rfl, rfl⟩, p, rfl, rfl⟩

theorem Serving.handle {cb : Callback} {c : Call} (h : s.Serving cb)
    (hstep : HttpSession.handle parser s c = some t) : t.Serving cb := by
  cases c with
  | messageBegin method statusCode =>
    cases hstep
    exact ⟨h.side, h.ready⟩
  | url | status | headerField | headerValue => exact h.onPacket hstep
  | headersComplete onBody => exact (h.onHeadersComplete hstep).1
  | body at_ => exact h.callBody hstep
  | messageComplete =>
    obtain ⟨u, hu, hlast⟩ := Option.bind_eq_some_iff.mp hstep
    cases hlast
    exact ⟨(h.callBody hu).side, (h.callBody hu).ready⟩

theorem Serving.run {cb : Callback} {cs : List Call} (h : s.Serving cb)
    (hrun : s.run parser cs = some t) : t.Serving cb := by
  induction cs generalizing s with
  | nil =>
    cases hrun
    exact h
  | cons c cs ih =>
    rw [HttpSession.run, List.foldlM_cons] at hrun
    obtain ⟨u, hu, hrest⟩ := Option.bind_eq_some_iff.mp hrun
    exact ih (h.handle hu) hrest

theorem Serving.handed {cb : Callback} (h : s.Serving cb) (r : Request) :
    ∃ t, s.run r.parser r.head = some t ∧ t.Receiving (HttpPacket.received r) ∧
      t.Serving cb ∧ s.handed r = some ⟨HttpPacket.received r⟩ := by
  obtain ⟨t, ht, hcurrent⟩ :=
    run_calls r.parser h.callback r.delivery r.method r.statusCode r.onBody
  have hserving := h.run ht
  have hsplit : ∃ u : HttpSession,
      u.Serving cb ∧ u.onHeadersComplete r.parser r.onBody = some t := by
    have hcalls : r.delivery.calls r.method r.statusCode r.onBody =
        (.messageBegin r.method r.statusCode :: r.delivery.data) ++
          [.headersComplete r.onBody] := rfl
    rw [hcalls, run_append] at ht
    obtain ⟨u, hu, hlast⟩ := Option.bind_eq_some_iff.mp ht
    rw [HttpSession.run, List.foldlM_cons] at hlast
    obtain ⟨v, hv, hnil⟩ := Option.bind_eq_some_iff.mp hlast
    cases hnil
    exact ⟨u, h.run hu, hv⟩
  obtain ⟨u, hu, hcomplete⟩ := hsplit
  obtain ⟨-, p, hp, hlog⟩ := hu.onHeadersComplete hcomplete
  refine ⟨t, ht, ⟨hcurrent, hserving.callback⟩, hserving, ?_⟩
  have hpacket : t.packets[p]? = some (HttpPacket.received r) := by
    rw [HttpSession.current, hp, Option.bind_some] at hcurrent
    exact hcurrent
  have hrun : s.run r.parser r.head = some t := ht
  simp [HttpSession.handed, hrun, hlog, hpacket]

theorem Receiving.callBody {k : HttpPacket} (h : s.Receiving k) (bytes : Option Bytes) :
    ∃ t : HttpSession, s.callBody bytes = some t ∧ t.Receiving k := by
  simp only [HttpSession.callBody, h.current, Option.bind_eq_bind, Option.bind_some]
  split
  · exact ⟨_, rfl, h.current, h.ready⟩
  · exact ⟨s, rfl, h⟩

theorem Receiving.part {k : HttpPacket} (h : s.Receiving k) (parser : Parser) (x : Part) :
    ∃ (t : HttpSession) (k' : HttpPacket),
      HttpSession.handle parser s x.call = some t ∧ t.Receiving k' := by
  cases x with
  | body at_ =>
    obtain ⟨t, ht, hlast⟩ := h.callBody (some at_)
    exact ⟨t, k, ht, hlast⟩
  | field at_ =>
    obtain ⟨t, ht, hlast⟩ := h.onPacket (·.onHeaderField at_)
    exact ⟨t, _, ht, hlast⟩
  | value at_ =>
    obtain ⟨t, ht, hlast⟩ := h.onPacket (·.onHeaderValue at_)
    exact ⟨t, _, ht, hlast⟩

theorem Receiving.tail {k : HttpPacket} (h : s.Receiving k) (parser : Parser)
    (parts : List Part) :
    ∃ t : HttpSession, s.run parser (parts.map Part.call ++ [.messageComplete]) = some t := by
  induction parts generalizing s k with
  | nil =>
    obtain ⟨t, ht, -⟩ := h.callBody none
    exact ⟨{ t with packet := none }, by
      simp [HttpSession.run, HttpSession.handle, onMessageComplete, ht]⟩
  | cons x parts ih =>
    obtain ⟨u, k', hu, hpart⟩ := h.part parser x
    obtain ⟨t, ht⟩ := ih hpart
    refine ⟨t, ?_⟩
    rw [HttpSession.run, List.map_cons, List.cons_append, List.foldlM_cons, hu]
    exact ht

theorem Serving.serve {cb : Callback} (h : s.Serving cb) (r : Request) :
    ∃ t, r.serve s = some t ∧ t.Serving cb := by
  obtain ⟨u, hu, hreceiving, -, -⟩ := h.handed r
  obtain ⟨t, ht⟩ := hreceiving.tail r.parser r.parts
  have hserve : r.serve s = some t := by
    rw [Request.serve, run_append, hu]
    exact ht
  exact ⟨t, hserve, h.run hserve⟩

theorem Serving.serveAll {cb : Callback} (h : s.Serving cb) (earlier : List Request) :
    ∃ t, earlier.foldlM Request.serve s = some t ∧ t.Serving cb := by
  induction earlier generalizing s with
  | nil => exact ⟨s, rfl, h⟩
  | cons r earlier ih =>
    obtain ⟨u, hu, hserving⟩ := h.serve r
    obtain ⟨t, ht, hlast⟩ := ih hserving
    exact ⟨t, by rw [List.foldlM_cons, hu]; exact ht, hlast⟩

end HttpSession

/-- After any requests, and cut in any way, a request reaches `onRequest` with its target and its
version; it has its method if and only if the memory of its packet held that method. -/
theorem request_line_iff (onRequest : Callback) (earlier : List Request) (r : Request) :
    ∃ s q, earlier.foldlM Request.serve (HttpSession.server onRequest) = some s ∧
      s.handed r = some q ∧ q.url = r.line.target ∧ q.packet.httpMajor = r.line.httpMajor ∧
      q.packet.httpMinor = r.line.httpMinor ∧
      (q.Carries r.line ↔ r.method.toNat = r.line.method) := by
  have hstart : (HttpSession.server onRequest).Serving onRequest := ⟨rfl, rfl⟩
  obtain ⟨s, hs, hserving⟩ := hstart.serveAll earlier
  obtain ⟨-, -, -, -, hhanded⟩ := hserving.handed r
  exact ⟨s, _, hs, hhanded, HttpPacket.received_url r, rfl, rfl,
    HttpPacket.received_carries_iff r⟩

def getRequest : Request where
  line := ⟨⟨1, by decide⟩, ascii "/a", 1, 1⟩
  url := [ascii "/", ascii "a"]
  headers := []
  parts := []
  method := 0
  statusCode := 0
  onBody := none
  target := rfl

theorem request_line_lost : ∃ q, (HttpSession.server 1).handed getRequest = some q ∧
    q.getMethod = some (ascii "DELETE") ∧
    methodStrings.get getRequest.line.method = ascii "GET" ∧ ¬ q.Carries getRequest.line := by
  have h : ((HttpSession.server 1).handed getRequest).map HttpRequest.getMethod =
      some (some (ascii "DELETE")) := by decide
  obtain ⟨q, hq, hmethod⟩ := Option.map_eq_some_iff.mp h
  have hline : methodStrings.get getRequest.line.method = ascii "GET" := by decide
  refine ⟨q, hq, hmethod, hline, fun hcarries => ?_⟩
  have hsame := hmethod.symm.trans hcarries.method
  rw [hline] at hsame
  exact absurd hsame (by decide)

end Hwnet.Http
