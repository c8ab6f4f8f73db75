import Hwnet.HttpParserSession
import Hwnet.HttpParserText
import Hwnet.HttpResponse
import Hwnet.HttpTrailers
import Mathlib.Data.List.Forall2

set_option autoImplicit false

/-!
# From one session to another

The texts that a session writes of its packets, and what the session at the other end makes of
them in one read.
-/
namespace Hwnet.Http

open HttpParser (Text Header Chunk Content Start Follows)

/-! ## The calls of a text -/

def Call.report (parser : Parser) : Call → Report
  | .messageBegin _ _ => .note .messageBegin
  | .url at_ => .data .url at_
  | .status at_ => .data (.status parser.statusCode) at_
  | .headerField at_ => .data .headerField at_
  | .headerValue at_ => .data .headerValue at_
  | .headersComplete _ => .note (.headersComplete parser.httpMajor parser.httpMinor)
  | .body at_ => .data .body at_
  | .messageComplete => .note .messageComplete

/-- A call in which nothing comes from the user or from the memory of a packet. -/
def Call.plain : Call → Prop
  | .messageBegin _ _ | .headersComplete _ => False
  | .url _ | .status _ | .headerField _ | .headerValue _ | .body _ | .messageComplete => True

namespace HttpParser

def Start.delivery (headers : List (List Bytes × List Bytes)) : Start → Delivery
  | .request _ u => ⟨[u], [], headers⟩
  | .response _ reason => ⟨[], if reason = [] then [] else [reason], headers⟩

def Start.code : Start → UInt16
  | .request _ _ => 0
  | .response code _ => UInt16.ofNat code

def Header.pieces (d : Header) : List Bytes × List Bytes := ([d.name], [d.value])

namespace Content

def pieces : Content → List Bytes
  | .empty => []
  | .identity body => [body]
  | .chunked chunks _ _ _ => chunks.map Chunk.data

def trailers : Content → List Header
  | .empty | .identity _ => []
  | .chunked _ _ _ trailers => trailers

def framing : Content → Framing
  | .empty | .identity _ => .contentLength
  | .chunked _ _ _ trailers => .chunked (trailers.map Header.pieces)

def calls (c : Content) : List Call :=
  c.pieces.map .body ++
    (c.framing.trailers.flatMap fun h => h.1.map .headerField ++ h.2.map .headerValue) ++
    c.framing.complete

end Content

namespace Text

def parser (d : Text) : Parser := ⟨d.start.code, UInt16.ofNat d.major, UInt16.ofNat d.minor⟩

def delivery (d : Text) : Delivery := d.start.delivery (d.headers.map Header.pieces)

def incoming (d : Text) (method statusCode : UInt32) (onBody : Option Callback) : Incoming where
  parser := d.parser
  head := d.delivery
  body := d.content.pieces
  framing := d.content.framing
  method
  statusCode
  onBody

end Text

end HttpParser

theorem report_headers (parser : Parser) (hs : List Header) :
    ((hs.map Header.pieces).flatMap fun h =>
      h.1.map Call.headerField ++ h.2.map Call.headerValue).map (Call.report parser) =
        hs.flatMap Header.reports := by
  induction hs with
  | nil => rfl
  | cons d hs ih =>
    rw [List.map_cons, List.flatMap_cons, List.map_append, ih, List.flatMap_cons]
    rfl

theorem report_delivery (d : Text) : d.delivery.data.map (Call.report d.parser) =
    d.start.reports ++ d.headers.flatMap Header.reports := by
  obtain ⟨start, major, minor, headers, content⟩ := d
  cases start with
  | request m u =>
    have hheaders := report_headers ⟨0, UInt16.ofNat major, UInt16.ofNat minor⟩ headers
    simp only [Delivery.data, Text.delivery, Start.delivery, Text.parser, Start.code,
      List.map_append, hheaders]
    rfl
  | response code reason =>
    have hheaders := report_headers
      ⟨UInt16.ofNat code, UInt16.ofNat major, UInt16.ofNat minor⟩ headers
    simp only [Delivery.data, Text.delivery, Start.delivery, Text.parser, Start.code,
      List.map_append, hheaders, Start.reports, HttpParser.reasonReports]
    by_cases hreason : reason = []
    · simp [hreason]
    · simp [hreason, Call.report]

theorem report_content (parser : Parser) (c : Content) : c.calls.map (Call.report parser) =
    c.reports ++ [.note .messageComplete] := by
  cases c with
  | empty => rfl
  | identity body => rfl
  | chunked chunks zero parameters trailers =>
    have hbody : ((chunks.map Chunk.data).map Call.body).map (Call.report parser) =
        chunks.map fun c => .data .body c.data := by
      simp [Call.report]
    simp only [Content.calls, Content.pieces, Content.framing, Framing.trailers, Framing.complete,
      List.map_append, hbody, report_headers parser trailers, Content.reports]
    rfl

theorem reports_eq (d : Text) : d.reports =
    .note .messageBegin :: (d.delivery.data.map (Call.report d.parser) ++
      .note (.headersComplete d.parser.httpMajor d.parser.httpMinor) ::
        d.content.calls.map (Call.report d.parser)) := by
  rw [report_delivery, report_content, Text.reports, List.append_assoc]
  rfl

theorem plain_delivery (d : Text) : ∀ c ∈ d.delivery.data, c.plain := by
  intro c hc
  simp only [Delivery.data, List.mem_append, List.mem_map, List.mem_flatMap] at hc
  rcases hc with (⟨_, -, rfl⟩ | ⟨_, -, rfl⟩) | ⟨_, -, ⟨_, -, rfl⟩ | ⟨_, -, rfl⟩⟩ <;> trivial

theorem plain_content (content : Content) : ∀ c ∈ content.calls, c.plain := by
  intro c hc
  simp only [Content.calls, List.mem_append, List.mem_map, List.mem_flatMap] at hc
  rcases hc with (⟨_, -, rfl⟩ | ⟨_, -, ⟨_, -, rfl⟩ | ⟨_, -, rfl⟩⟩) | hc
  · trivial
  · trivial
  · trivial
  · have hcomplete : content.framing.complete = [.messageComplete] := by
      cases content <;> rfl
    rw [hcomplete] at hc
    rw [List.mem_singleton.mp hc]
    trivial

/-! ## The session -/

theorem makes_append {first second : List Report} {calls : List (Parser × Call)}
    (makes : List.Forall₂ Makes (first ++ second) calls) :
    ∃ before after, calls = before ++ after ∧ List.Forall₂ Makes first before ∧
      List.Forall₂ Makes second after := by
  have hbefore := List.forall₂_take first.length makes
  have hafter := List.forall₂_drop first.length makes
  rw [List.take_left] at hbefore
  rw [List.drop_left] at hafter
  exact ⟨_, _, (List.take_append_drop _ _).symm, hbefore, hafter⟩

namespace HttpSession

variable {s : HttpSession} {parser : Parser}

theorem handle_plain {c : Call} (plain : c.plain) {p : Parser × Call}
    (makes : Makes (c.report parser) p) : s.handle p.1 p.2 = s.handle parser c := by
  obtain ⟨parser', c'⟩ := p
  cases c <;> cases c' <;> simp only [Call.report, Makes, Call.plain] at makes plain <;>
    first
    | (subst makes; rfl)
    | (obtain ⟨rfl, hcode⟩ := makes
       simp only [handle, hcode])
    | rfl

theorem execute_plain {cs : List Call} (plain : ∀ c ∈ cs, c.plain) {calls : List (Parser × Call)}
    (makes : List.Forall₂ Makes (cs.map (Call.report parser)) calls) :
    s.execute calls = s.run parser cs := by
  induction cs generalizing s calls with
  | nil =>
    cases makes
    rfl
  | cons c cs ih =>
    obtain ⟨hc, hcs⟩ := List.forall_mem_cons.mp plain
    cases makes with
    | cons hmakes hrest =>
      rw [execute, run, List.foldlM_cons, List.foldlM_cons, handle_plain hc hmakes]
      cases s.handle parser c with
      | none => rfl
      | some t => exact ih hcs hrest

theorem execute_cons (p : Parser × Call) (calls : List (Parser × Call)) :
    s.execute (p :: calls) = (s.handle p.1 p.2).bind (execute · calls) := rfl

/-- The calls of one text are those of its message. -/
theorem execute_text {d : Text} {calls : List (Parser × Call)}
    (makes : List.Forall₂ Makes d.reports calls) :
    ∃ (method statusCode : UInt32) (onBody : Option Callback), ∀ s : HttpSession,
      s.execute calls = (d.incoming method statusCode onBody).serve s := by
  rw [reports_eq] at makes
  cases makes with
  | @cons _ p _ _ hbegin hrest =>
  obtain ⟨data, rest, rfl, hdata, hrest⟩ := makes_append hrest
  cases hrest with
  | @cons _ q _ tail hcomplete htail =>
  obtain ⟨parser, call⟩ := p
  obtain ⟨parser', call'⟩ := q
  cases call <;> simp only [Makes] at hbegin
  cases call' <;> simp only [Makes] at hcomplete
  rename_i method statusCode onBody
  refine ⟨method, statusCode, onBody, fun s => ?_⟩
  have hlast (t : HttpSession) : t.execute ((parser', .headersComplete onBody) :: tail) =
      t.run d.parser (.headersComplete onBody :: d.content.calls) := by
    have hsame : t.onHeadersComplete parser' onBody = t.onHeadersComplete d.parser onBody := by
      simp only [onHeadersComplete, hcomplete.1, hcomplete.2]
    rw [execute_cons, run, List.foldlM_cons]
    show (t.onHeadersComplete parser' onBody).bind _ = (t.onHeadersComplete d.parser onBody).bind _
    rw [hsame]
    exact congrArg _ (funext fun u => execute_plain (plain_content d.content) htail)
  have hcalls : (d.incoming method statusCode onBody).calls = .messageBegin method statusCode ::
      (d.delivery.data ++ .headersComplete onBody :: d.content.calls) := by
    simp only [Incoming.calls, Incoming.headCalls, Delivery.calls, Content.calls, Text.incoming,
      List.cons_append, List.append_assoc, List.nil_append]
  rw [Incoming.serve, hcalls, execute_cons, run, List.foldlM_cons]
  refine congrArg _ (funext fun t => ?_)
  rw [execute_append, execute_plain (plain_delivery d) hdata]
  refine Eq.trans ?_ (run_append d.parser d.delivery.data _).symm
  exact congrArg _ (funext hlast)

theorem execute_texts {ds : List Text} {calls : List (Parser × Call)}
    (makes : List.Forall₂ Makes (ds.flatMap Text.reports) calls) : ∃ ms : List Incoming,
      List.Forall₂ (fun d m => ∃ (method statusCode : UInt32) (onBody : Option Callback),
        m = d.incoming method statusCode onBody) ds ms ∧
      ∀ s : HttpSession, s.execute calls = ms.foldlM Incoming.serve s := by
  induction ds generalizing calls with
  | nil =>
    cases makes
    exact ⟨[], .nil, fun _ => rfl⟩
  | cons d ds ih =>
    rw [List.flatMap_cons] at makes
    obtain ⟨first, rest, rfl, hfirst, hrest⟩ := makes_append makes
    obtain ⟨method, statusCode, onBody, hmessage⟩ := execute_text hfirst
    obtain ⟨ms, hms, hall⟩ := ih hrest
    refine ⟨d.incoming method statusCode onBody :: ms, .cons ⟨_, _, _, rfl⟩ hms, fun s => ?_⟩
    rw [execute_append, hmessage, List.foldlM_cons]
    exact congrArg _ (funext hall)

end HttpSession

theorem HttpSession.afterAll_completed {s : HttpSession} (cb : Callback) (ms : List Incoming) :
    (ms.foldl (·.after cb ·) s).packets = s.packets ++ ms.map Incoming.completed := by
  induction ms generalizing s with
  | nil => exact (List.append_nil _).symm
  | cons m ms ih =>
    rw [List.foldl_cons, ih, List.map_cons]
    exact List.append_assoc _ _ _

theorem Endpoint.recv_texts (side : Side) (cb : Callback) {ds : List Text}
    (follows : Follows side.parserType 0 ds) {calls : List (Parser × Call)}
    (parses : (Endpoint.start side cb).Parses (.data (ds.flatMap Text.text), calls)) :
    ∃ (ms : List Incoming) (c : Endpoint),
      List.Forall₂ (fun d m => ∃ (method statusCode : UInt32) (onBody : Option Callback),
        m = d.incoming method statusCode onBody) ds ms ∧
      (Endpoint.start side cb).recv (.data (ds.flatMap Text.text), calls) = some c ∧
      c.connection = { Connection.start side cb with
        session := ms.foldl (·.after cb ·) (Connection.start side cb).session } := by
  obtain ⟨hne, hmakes⟩ := parses
  have hside : side.parserType ≠ .both := by cases side <;> decide
  have hreads : ∀ r ∈ [ds.flatMap Text.text], r ≠ [] := fun r hr => List.mem_singleton.mp hr ▸ hne
  obtain ⟨-, hconsumed, -, hreports⟩ := HttpParser.texts_read hside follows
    List.flatten_singleton hreads
  have hone : (HttpParser.init side.parserType).executeAll [ds.flatMap Text.text] =
      (HttpParser.init side.parserType).execute (ds.flatMap Text.text) := by
    rw [(HttpParser.fits_init _).executeAll_eq hreads, Slices.Machine.feed_singleton,
      (HttpParser.fits_init _).execute_eq hne]
  rw [hone] at hconsumed hreports
  obtain ⟨ms, hms, hcalls⟩ := HttpSession.execute_texts ((hreports rfl) ▸ hmakes)
  have hrecv := Connection.recvInWorker_fine (c := Connection.start side cb) rfl
    (r := (start side cb).read calls (.data (ds.flatMap Text.text))) hconsumed
  refine ⟨ms, ⟨((start side cb).parser.execute (ds.flatMap Text.text)).state, _⟩, hms, ?_, rfl⟩
  have hsession : (Connection.start side cb).session.execute calls =
      some (ms.foldl (·.after cb ·) (Connection.start side cb).session) := by
    rw [hcalls, HttpSession.run_messages (Connection.start_ready side cb)]
  rw [recv, if_neg (by simp [start, Connection.start])]
  show (Connection.recvInWorker (Connection.start side cb) _).bind _ = _
  rw [hrecv]
  show (((Connection.start side cb).session.execute calls).map _).bind _ = _
  rw [hsession]
  rfl

/-! ## Packets -/

namespace HttpPacket

theorem insertAll_toList (t : Headers) : insertAll ∅ t.toList = t := by
  refine Std.ExtTreeMap.ext_getElem? fun x => ?_
  cases hx : t[x]? with
  | none =>
    have habsent : x ∉ t.toList.map Prod.fst := by
      intro hmem
      obtain ⟨h, hh, rfl⟩ := List.mem_map.mp hmem
      rw [Std.ExtTreeMap.mem_toList_iff_getElem?_eq_some.mp hh] at hx
      cases hx
    rw [get_insertAll habsent, Std.ExtTreeMap.getElem?_empty]
  | some v =>
    have hdistinct : (t.toList.map Prod.fst).Nodup := by
      rw [Std.ExtTreeMap.map_fst_toList_eq_keys]
      exact Std.ExtTreeMap.nodup_keys
    exact get_insertAll_of_mem hdistinct (Std.ExtTreeMap.mem_toList_iff_getElem?_eq_some.mpr hx)

end HttpPacket

/-- A packet and the body that follows it, written for the session `reader`. -/
structure Sent where
  packet : HttpPacket
  content : Content

def Side.packetType : Side → ℤ
  | .ServerSide => HttpPacket.request
  | .ClientSide => HttpPacket.response

namespace Sent

def start (reader : Side) (p : Sent) : Start :=
  match reader with
  | .ServerSide => .request (HttpMethod.ofNat p.packet.method.toNat) p.packet.url
  | .ClientSide => .response p.packet.statusCode.toNat p.packet.status

def text (reader : Side) (p : Sent) : Text where
  start := p.start reader
  major := p.packet.httpMajor.toNat
  minor := p.packet.httpMinor.toNat
  headers := p.packet.headers.toList.map fun h => ⟨h.1, [], h.2⟩
  content := p.content

def write (reader : Side) (p : Sent) : Option Bytes :=
  (p.packet.makeHeader reader.packetType []).map (· ++ p.content.text)

theorem method_string {n : ℕ} {method : Bytes} (h : methodStrings[n]? = some method) :
    (HttpMethod.ofNat n).string = method := by
  have hlt : n < 27 := (List.getElem?_eq_some_iff.mp h).1
  have hidx : ∀ n < 27, (HttpMethod.ofNat n).ctorIdx = n := by decide
  rw [HttpMethod.string, hidx n hlt, List.getD_eq_getElem?_getD, h, Option.getD_some]

theorem write_eq {reader : Side} {p : Sent} {bytes : Bytes} (h : p.write reader = some bytes) :
    bytes = (p.text reader).text := by
  obtain ⟨head, hhead, rfl⟩ := Option.map_eq_some_iff.mp h
  rw [HttpPacket.makeHeader_eq] at hhead
  obtain ⟨line, hline, rfl⟩ := Option.map_eq_some_iff.mp hhead
  have hheaders : ((p.text reader).headers.flatMap Header.text) =
      p.packet.headers.toList.flatMap HttpPacket.headerLine := by
    show ((p.packet.headers.toList.map _).flatMap Header.text) = _
    rw [List.flatMap_map]
    refine List.flatMap_congr fun h _ => ?_
    simp [Header.text, HttpPacket.headerLine]
  have hstart : (p.text reader).start.text (p.text reader).major (p.text reader).minor =
      line ++ [CR, LF] := by
    rw [HttpPacket.start] at hline
    cases reader with
    | ServerSide =>
      rw [if_pos (show Side.ServerSide.packetType = HttpPacket.request from rfl)] at hline
      obtain ⟨method, hmethod, rfl⟩ := Option.map_eq_some_iff.mp hline
      show HttpParser.requestLine (HttpMethod.ofNat _) p.packet.url _ _ = _
      rw [HttpParser.requestLine, method_string hmethod, HttpPacket.version_eq]
      simp [HttpParser.versionText, text]
    | ClientSide =>
      rw [if_neg (show Side.ClientSide.packetType ≠ HttpPacket.request by decide)] at hline
      obtain rfl := Option.some.inj hline
      show HttpParser.statusLine _ _ p.packet.statusCode.toNat p.packet.status = _
      rw [HttpParser.statusLine, HttpPacket.version_eq]
      simp [HttpParser.versionText, text]
  rw [Text.text, Text.head, hstart, hheaders]
  simp [text]

end Sent

/-! ## What arrives -/

/-- `k` is the packet that `reader` has made of what was sent. The method does not arrive, nor does
the last trailer, nor a status code without a reason. -/
structure Sent.Carries (reader : Side) (p : Sent) (k : HttpPacket) : Prop where
  url : reader = .ServerSide → k.url = p.packet.url
  status : reader = .ClientSide → k.status = p.packet.status ∧
    (p.packet.status ≠ [] → k.statusCode = p.packet.statusCode)
  version : k.httpMajor = p.packet.httpMajor ∧ k.httpMinor = p.packet.httpMinor
  headers : k.headers = HttpPacket.insertAll p.packet.headers
    (p.content.trailers.dropLast.map fun h => (h.name, h.value))

namespace Incoming

theorem completed_part {α : Type} (part : HttpPacket → α)
    (field : ∀ k c, part (k.onHeaderField c) = part k)
    (value : ∀ k c, part (k.onHeaderValue c) = part k) (m : Incoming) :
    part m.completed = part m.received :=
  HttpPacket.headers_keep part field value m.framing.trailers m.received

theorem received_url (m : Incoming) : m.received.url = m.head.url.flatten := by
  have hdata : ((HttpPacket.new m.method m.statusCode).onData m.parser m.head).url =
      m.head.url.flatten := by
    unfold HttpPacket.onData
    rw [(HttpPacket.headers_frame _).1, HttpPacket.urls_eq]
    obtain ⟨code, hstatus⟩ := HttpPacket.statuses_spec
      (k := { HttpPacket.new m.method m.statusCode with url := [] ++ m.head.url.flatten })
      m.head.status m.parser.statusCode.toUInt32
    exact congrArg HttpPacket.url hstatus
  exact (HttpPacket.flush_frame _).1.trans hdata

theorem completed_url (m : Incoming) : m.completed.url = m.head.url.flatten :=
  (m.completed_part HttpPacket.url (fun k _ => (HttpPacket.flush_frame k).1)
    fun _ _ => rfl).trans m.received_url

theorem completed_status (m : Incoming) : m.completed.status = m.head.status.flatten :=
  (m.completed_part HttpPacket.status (fun k _ => (HttpPacket.flush_frame k).2)
    fun _ _ => rfl).trans m.received_status

theorem completed_statusCode (m : Incoming) : m.completed.statusCode =
    if m.head.status = [] then m.statusCode else m.parser.statusCode.toUInt32 :=
  (m.completed_part HttpPacket.statusCode (fun k _ => HttpPacket.flush_statusCode k)
    fun _ _ => rfl).trans m.received_statusCode

theorem flush_version (k : HttpPacket) :
    (k.flush.httpMajor, k.flush.httpMinor) = (k.httpMajor, k.httpMinor) := by
  unfold HttpPacket.flush
  split <;> rfl

theorem completed_version (m : Incoming) :
    (m.completed.httpMajor, m.completed.httpMinor) = (m.parser.httpMajor, m.parser.httpMinor) :=
  m.completed_part (fun k => (k.httpMajor, k.httpMinor)) (fun k _ => flush_version k) fun _ _ => rfl

end Incoming

theorem HttpParser.Header.joined_pieces (d : Header) : joined d.pieces = (d.name, d.value) := by
  simp [joined, Header.pieces]

theorem HttpParser.Content.framing_trailers (c : Content) :
    c.framing.trailers = c.trailers.map Header.pieces := by
  cases c <;> rfl

namespace Sent

theorem carries {reader : Side} {p : Sent} {carry : ℕ} (legal : (p.text reader).Legal carry)
    (trailers : ∀ h ∈ p.content.trailers, h.Legal) (method statusCode : UInt32)
    (onBody : Option Callback) :
    Carries reader p ((p.text reader).incoming method statusCode onBody).completed := by
  have hversion := Incoming.completed_version ((p.text reader).incoming method statusCode onBody)
  obtain ⟨hmajor, hminor⟩ := Prod.mk.inj hversion
  refine ⟨?_, ?_, ⟨hmajor.trans UInt16.ofNat_toNat, hminor.trans UInt16.ofNat_toNat⟩, ?_⟩
  · rintro rfl
    rw [Incoming.completed_url]
    exact List.flatten_singleton
  · rintro rfl
    rw [Incoming.completed_status, Incoming.completed_statusCode]
    show (if p.packet.status = [] then [] else [p.packet.status]).flatten = _ ∧
      (p.packet.status ≠ [] → (if (if p.packet.status = [] then [] else [p.packet.status]) = []
        then statusCode else (UInt16.ofNat p.packet.statusCode.toNat).toUInt32) = _)
    by_cases hstatus : p.packet.status = []
    · simp [hstatus]
    · have hcode : p.packet.statusCode.toNat ≤ 999 := legal.start.1
      rw [if_neg hstatus, if_neg (List.cons_ne_nil _ _)]
      refine ⟨List.flatten_singleton, fun _ => UInt32.toNat_inj.mp ?_⟩
      rw [UInt16.toNat_toUInt32, UInt16.toNat_ofNat']
      omega
  · have hwhole : ∀ h ∈ ((p.text reader).incoming method statusCode onBody).fields,
        Incoming.Whole h := by
      intro h hh
      have hpieces : ∃ d : Header, d.Legal ∧ h = d.pieces := by
        rcases List.mem_append.mp hh with hh | hh
        · have hhead : h ∈ (p.text reader).headers.map Header.pieces := by
            cases reader <;> exact hh
          obtain ⟨d, hd, rfl⟩ := List.mem_map.mp hhead
          exact ⟨d, legal.headers d hd, rfl⟩
        · have htrailer : h ∈ p.content.trailers.map Header.pieces := by
            rw [← Content.framing_trailers]
            exact hh
          obtain ⟨d, hd, rfl⟩ := List.mem_map.mp htrailer
          exact ⟨d, trailers d hd, rfl⟩
      obtain ⟨d, hd, rfl⟩ := hpieces
      exact ⟨d.name, hd.name, rfl⟩
    have hhead : ((p.text reader).incoming method statusCode onBody).head.headers.map joined =
        p.packet.headers.toList := by
      have hheaders : ((p.text reader).incoming method statusCode onBody).head.headers =
          (p.text reader).headers.map Header.pieces := by cases reader <;> rfl
      rw [hheaders, text, List.map_map, List.map_map]
      refine (List.map_congr_left fun h _ => ?_).trans (List.map_id _)
      exact Header.joined_pieces _
    rw [Incoming.completed_headers hwhole, List.map_append, HttpPacket.insertAll, List.foldl_append,
      hhead]
    show HttpPacket.insertAll (HttpPacket.insertAll ∅ p.packet.headers.toList) _ = _
    rw [HttpPacket.insertAll_toList]
    show HttpPacket.insertAll _ (p.content.framing.trailers.dropLast.map joined) = _
    rw [Content.framing_trailers, List.map_dropLast, List.map_dropLast, List.map_map]
    exact congrArg (fun l => HttpPacket.insertAll _ (List.dropLast l))
      (List.map_congr_left fun d _ => d.joined_pieces)

def Hears (p : Sent) (log : List Event) (i : ℕ) (cb : Callback) : Prop :=
  ∃ pieces : List Bytes, pieces.flatten = p.content.pieces.flatten ∧
    bodyCalls log i = pieces.map (fun bytes => .body cb (some bytes)) ++ [.body cb none]

theorem mapM_write {reader : Side} {ps : List Sent} {texts : List Bytes}
    (writes : ps.mapM (write reader) = some texts) :
    texts.flatten = (ps.map (text reader)).flatMap Text.text := by
  induction ps generalizing texts with
  | nil =>
    obtain rfl := Option.some.inj writes
    rfl
  | cons p ps ih =>
    rw [List.mapM_cons] at writes
    obtain ⟨bytes, hfirst, htail⟩ := Option.bind_eq_some_iff.mp writes
    obtain ⟨rest, hrest, hlast⟩ := Option.bind_eq_some_iff.mp htail
    obtain rfl := Option.some.inj hlast
    rw [List.flatten_cons, List.map_cons, List.flatMap_cons, ih hrest, write_eq hfirst]

theorem hears {reader : Side} {p : Sent} {m : Incoming} {method statusCode : UInt32}
    {onBody : Option Callback} {cb : Callback}
    (hm : m = (p.text reader).incoming method statusCode onBody) (hears : m.onBody = some cb)
    {log : List Event} {i : ℕ} (body : bodyCalls log i = m.bodyEvents) : p.Hears log i cb := by
  refine ⟨p.content.pieces, rfl, ?_⟩
  have hcomplete : p.content.framing.complete = [.messageComplete] := by
    cases p.content <;> rfl
  rw [body, Incoming.bodyEvents, hears]
  subst hm
  show _ ++ p.content.framing.complete.map _ = _
  rw [hcomplete]
  rfl

theorem legal_of_follows {t : ParserType} {carry : ℕ} {ds : List Text}
    (follows : Follows t carry ds) : ∀ d ∈ ds, ∃ n : ℕ, d.Legal n := by
  induction ds generalizing carry with
  | nil => nofun
  | cons d ds ih =>
    obtain ⟨hlegal, -, -, hrest⟩ := follows
    exact List.forall_mem_cons.mpr ⟨⟨carry, hlegal⟩, ih hrest⟩

theorem legal_trailers {d : Text} {carry : ℕ} (legal : d.Legal carry) :
    ∀ h ∈ d.content.trailers, h.Legal := by
  obtain ⟨f, n, -, -, hframed⟩ := legal.framed
  cases hcontent : d.content with
  | empty => nofun
  | identity body => nofun
  | chunked chunks zero parameters trailers =>
    rw [hcontent] at hframed
    exact hframed.2.2.2.2.2.1

end Sent

/-- What is written of some packets and read at the other end in one read makes packets that carry
them, one for each, and their bodies are heard. -/
theorem Endpoint.exchanged (reader : Side) (cb : Callback) {ps : List Sent}
    (follows : Follows reader.parserType 0 (ps.map (Sent.text reader))) {texts : List Bytes}
    (writes : ps.mapM (Sent.write reader) = some texts) {calls : List (Parser × Call)}
    (parses : (start reader cb).Parses (.data texts.flatten, calls)) :
    ∃ c : Endpoint, (start reader cb).recv (.data texts.flatten, calls) = some c ∧
      c.connection.closed = false ∧ c.connection.session.packets.length = ps.length ∧
      ∀ (i : ℕ) (p : Sent), ps[i]? = some p → ∃ k : HttpPacket,
        c.connection.session.packets[i]? = some k ∧ p.Carries reader k ∧
        ∀ hears : Callback, k.onBody = some hears →
          p.Hears c.connection.session.log i hears := by
  rw [Sent.mapM_write writes] at parses ⊢
  obtain ⟨ms, c, hms, hc, hconnection⟩ := recv_texts reader cb follows parses
  obtain ⟨hlog, hpackets⟩ := Connection.start_empty reader cb
  have hlogged : (Connection.start reader cb).session.Logged := by
    rw [HttpSession.Logged, hlog]
    exact fun e he => absurd he List.not_mem_nil
  have hall : c.connection.session.packets = ms.map Incoming.completed := by
    rw [hconnection, HttpSession.afterAll_completed, hpackets, List.nil_append]
  have hlength : ms.length = ps.length := by
    rw [← hms.length_eq, List.length_map]
  refine ⟨c, hc, ?_, ?_, ?_⟩
  · rw [hconnection]
    rfl
  · rw [hall, List.length_map, hlength]
  · intro i p hp
    obtain ⟨hi, rfl⟩ := List.getElem?_eq_some_iff.mp hp
    have hmi : i < ms.length := hlength ▸ hi
    obtain ⟨method, statusCode, onBody, hm⟩ := hms.get (by simpa using hi) hmi
    rw [List.get_eq_getElem, List.get_eq_getElem, List.getElem_map] at hm
    have htext : ps[i].text reader ∈ ps.map (Sent.text reader) :=
      List.mem_map_of_mem (List.getElem_mem hi)
    obtain ⟨carry, hlegal⟩ := Sent.legal_of_follows follows _ htext
    refine ⟨ms[i].completed, ?_, ?_, fun hears honBody => ?_⟩
    · rw [hall, List.getElem?_map, List.getElem?_eq_getElem hmi, Option.map_some]
    · rw [hm]
      exact Sent.carries hlegal (Sent.legal_trailers hlegal) method statusCode onBody
    · have hsplit : ms = ms.take i ++ ms[i] :: ms.drop (i + 1) := by
        rw [List.getElem_cons_drop, List.take_append_drop]
      have hbody := HttpSession.bodyCalls_messages hlogged cb (ms.take i) (ms.drop (i + 1)) ms[i]
      rw [← hsplit, hpackets, List.length_take, Nat.min_eq_left (Nat.le_of_lt hmi),
        List.length_nil, Nat.zero_add] at hbody
      rw [hconnection]
      exact Sent.hears hm ((HttpPacket.headers_onBody _ _).symm.trans honBody) hbody

def putHi : Sent where
  packet := { HttpPacket.new 4 0 with
    url := ascii "/a",
    headers := Std.ExtTreeMap.empty.insert (ascii "Content-Length") (ascii "2") }
  content := .identity (ascii "hi")

def postHello : Sent where
  packet := { HttpPacket.new 3 0 with
    url := ascii "/b",
    headers := Std.ExtTreeMap.empty.insert (ascii "Transfer-Encoding") (ascii "chunked") }
  content := .chunked [⟨ascii "5", [], ascii "hello"⟩] (ascii "0") [] [⟨ascii "Id", [], ascii "7"⟩]

def putHiText : Bytes :=
  ascii "PUT /a HTTP/1.1\r\nContent-Length:2\r\n\r\nhi"

def postHelloText : Bytes :=
  ascii "POST /b HTTP/1.1\r\nTransfer-Encoding:chunked\r\n\r\n5\r\nhello\r\n0\r\nId:7\r\n\r\n"

def putPostCalls : List (Parser × Call) :=
  [(⟨0, 0, 0⟩, .messageBegin 4 0), (⟨0, 0, 0⟩, .url (ascii "/a")),
    (⟨0, 1, 1⟩, .headerField (ascii "Content-Length")), (⟨0, 1, 1⟩, .headerValue (ascii "2")),
    (⟨0, 1, 1⟩, .headersComplete (some 5)), (⟨0, 1, 1⟩, .body (ascii "hi")),
    (⟨0, 1, 1⟩, .messageComplete),
    (⟨0, 1, 1⟩, .messageBegin 3 0), (⟨0, 1, 1⟩, .url (ascii "/b")),
    (⟨0, 1, 1⟩, .headerField (ascii "Transfer-Encoding")),
    (⟨0, 1, 1⟩, .headerValue (ascii "chunked")), (⟨0, 1, 1⟩, .headersComplete (some 6)),
    (⟨0, 1, 1⟩, .body (ascii "hello")), (⟨0, 1, 1⟩, .headerField (ascii "Id")),
    (⟨0, 1, 1⟩, .headerValue (ascii "7")), (⟨0, 1, 1⟩, .messageComplete)]

theorem follows_putHi : Follows Side.ServerSide.parserType 0
    ([putHi, postHello].map (Sent.text .ServerSide)) := by
  have hput : (putHi.text .ServerSide).Legal 0 :=
    ⟨⟨by decide, ⟨by decide, by decide⟩, by decide⟩, by decide, by decide, by decide,
      {}, 2, by decide, rfl, rfl, by decide, by decide, by decide⟩
  have hpost : (postHello.text .ServerSide).Legal 0 :=
    ⟨⟨by decide, ⟨by decide, by decide⟩, by decide⟩, by decide, by decide, by decide,
      { chunked := true }, ULLONG_MAX, by decide, rfl, rfl, by decide, by decide, by decide,
      by decide, by decide, by decide, by decide⟩
  exact ⟨hput, rfl, Or.inr (by decide), hpost, rfl, Or.inl rfl, trivial⟩

theorem parses_putPost : (Endpoint.start .ServerSide 1).Parses
    (.data [putHiText, postHelloText].flatten, putPostCalls) := by
  refine ⟨by decide, ?_⟩
  have hreports : ((Endpoint.start .ServerSide 1).parser.execute
      [putHiText, postHelloText].flatten).reports =
        [putHi, postHello].flatMap fun p => (p.text .ServerSide).reports := by
    decide +kernel
  rw [hreports]
  exact .cons trivial (.cons rfl (.cons rfl (.cons rfl (.cons ⟨rfl, rfl⟩ (.cons rfl (.cons trivial
    (.cons trivial (.cons rfl (.cons rfl (.cons rfl (.cons ⟨rfl, rfl⟩ (.cons rfl (.cons rfl
      (.cons rfl (.cons trivial .nil)))))))))))))))

/-- The two requests come in one read, and the callbacks hear both bodies. -/
theorem Endpoint.exchanged_put : ∃ c : Endpoint,
    (start .ServerSide 1).recv (.data [putHiText, postHelloText].flatten, putPostCalls) = some c ∧
      c.connection.closed = false ∧ c.connection.session.packets.length = 2 ∧
      putHi.Hears c.connection.session.log 0 5 ∧ postHello.Hears c.connection.session.log 1 6 := by
  have hwrites : [putHi, postHello].mapM (Sent.write .ServerSide) =
      some [putHiText, postHelloText] := by decide +kernel
  obtain ⟨c, hc, hclosed, hlength, hpackets⟩ :=
    exchanged .ServerSide 1 follows_putHi hwrites parses_putPost
  have hbodies : ((start .ServerSide 1).recv
      (.data [putHiText, postHelloText].flatten, putPostCalls)).map
        (fun c => c.connection.session.packets.map HttpPacket.onBody) = some [some 5, some 6] := by
    decide +kernel
  rw [hc] at hbodies
  have honBody := Option.some.inj hbodies
  refine ⟨c, hc, hclosed, hlength, ?_, ?_⟩
  · obtain ⟨k, hk, -, hears⟩ := hpackets 0 putHi rfl
    refine hears 5 ?_
    have hfirst := congrArg (·[0]?) honBody
    simpa [hk] using hfirst
  · obtain ⟨k, hk, -, hears⟩ := hpackets 1 postHello rfl
    refine hears 6 ?_
    have hsecond := congrArg (·[1]?) honBody
    simpa [hk] using hsecond

end Hwnet.Http
