import Hwnet.HttpMessages

set_option autoImplicit false

/-!
# The status line of a response

`on_status` copies the status code together with a piece of the reason phrase, and nothing else
copies it. Where there is no reason phrase the code stays what the memory of the packet held.
-/
namespace Hwnet.Http

structure HttpResponse where
  packet : HttpPacket

namespace HttpResponse

def statusCode (r : HttpResponse) : UInt32 := r.packet.statusCode

def status (r : HttpResponse) : Bytes := r.packet.status

end HttpResponse

structure StatusLine where
  statusCode : UInt16
  reason : Bytes

/-- A message with this status line. The parser makes no `on_status` for an empty reason phrase. -/
structure Response extends Incoming where
  line : StatusLine
  code : parser.statusCode = line.statusCode
  reason : head.status.flatten = line.reason
  silent : line.reason = [] → head.status = []

def HttpSession.responded (s : HttpSession) (m : Incoming) : Option HttpResponse := do
  let t ← s.run m.parser m.headCalls
  match t.log.getLast? with
  | some (.response _ p) => (t.packets[p]?).map HttpResponse.mk
  | _ => none

structure HttpResponse.Carries (q : HttpResponse) (line : StatusLine) : Prop where
  statusCode : q.statusCode = line.statusCode.toUInt32
  status : q.status = line.reason

/-! ## The packet -/

namespace HttpPacket

variable {k : HttpPacket}

/-- The last piece of the reason phrase sets the code. -/
theorem statuses_code (us : List Bytes) (code : UInt32) :
    (us.foldl (·.onStatus · code) k).statusCode = if us = [] then k.statusCode else code := by
  induction us generalizing k with
  | nil => rfl
  | cons u us ih =>
    rw [List.foldl_cons, ih, if_neg (List.cons_ne_nil u us)]
    exact ite_self code

theorem flush_statusCode (k : HttpPacket) : k.flush.statusCode = k.statusCode := by
  unfold flush
  split <;> rfl

theorem headers_statusCode (l : List (List Bytes × List Bytes)) (k : HttpPacket) :
    (l.foldl onHeader k).statusCode = k.statusCode :=
  headers_keep HttpPacket.statusCode (fun k _ => flush_statusCode k) (fun _ _ => rfl) l k

end HttpPacket

namespace Incoming

theorem received_status (m : Incoming) : m.received.status = m.head.status.flatten := by
  have hdata : ((HttpPacket.new m.method m.statusCode).onData m.parser m.head).status =
      m.head.status.flatten := by
    unfold HttpPacket.onData
    rw [(HttpPacket.headers_frame _).2, HttpPacket.urls_eq]
    obtain ⟨code, hstatus⟩ := HttpPacket.statuses_spec
      (k := { HttpPacket.new m.method m.statusCode with url := [] ++ m.head.url.flatten })
      m.head.status m.parser.statusCode.toUInt32
    exact congrArg HttpPacket.status hstatus
  exact (HttpPacket.flush_frame _).2.trans hdata

theorem received_statusCode (m : Incoming) : m.received.statusCode =
    if m.head.status = [] then m.statusCode else m.parser.statusCode.toUInt32 := by
  have hdata : ((HttpPacket.new m.method m.statusCode).onData m.parser m.head).statusCode =
      if m.head.status = [] then m.statusCode else m.parser.statusCode.toUInt32 := by
    unfold HttpPacket.onData
    rw [HttpPacket.headers_statusCode, HttpPacket.statuses_code, HttpPacket.urls_eq]
    rfl
  exact (HttpPacket.flush_statusCode _).trans hdata

end Incoming

theorem Response.status_nil_iff (r : Response) : r.head.status = [] ↔ r.line.reason = [] := by
  refine ⟨fun hnil => ?_, r.silent⟩
  rw [← r.reason, hnil, List.flatten_nil]

/-- All of the line but the code, which may be what the memory held. -/
theorem Response.received_carries_iff (r : Response) :
    HttpResponse.Carries ⟨r.received⟩ r.line ↔
      r.line.reason ≠ [] ∨ r.statusCode = r.line.statusCode.toUInt32 := by
  have hstatus : HttpResponse.status ⟨r.received⟩ = r.line.reason :=
    (Incoming.received_status _).trans r.reason
  have hcode : HttpResponse.statusCode ⟨r.received⟩ =
      if r.line.reason = [] then r.statusCode else r.line.statusCode.toUInt32 := by
    rw [HttpResponse.statusCode, Incoming.received_statusCode, r.code]
    simp only [r.status_nil_iff]
  constructor
  · intro h
    by_cases hreason : r.line.reason = []
    · rw [if_pos hreason] at hcode
      exact .inr (hcode.symm.trans h.statusCode)
    · exact .inl hreason
  · intro h
    refine ⟨?_, hstatus⟩
    rw [hcode]
    split
    · exact h.resolve_left (not_not_intro ‹_›)
    · rfl

/-! ## Responses on a connection -/

namespace HttpSession

variable {s : HttpSession}

theorem client_responded {cb : Callback} (side : s.side = .ClientSide)
    (ready : s.callback = some cb) (m : Incoming) : s.responded m = some ⟨m.received⟩ := by
  simp [responded, run_head ready, announce, receiving, side]

theorem afterAll_side (cb : Callback) (ms : List Incoming) :
    (ms.foldl (·.after cb ·) s).side = s.side := by
  induction ms generalizing s with
  | nil => rfl
  | cons m ms ih => exact ih

end HttpSession

/-- After any messages, and cut in any way, a response reaches `onResponse` with its reason phrase;
it has its code if and only if that phrase is not empty or the memory of its packet held the
code. -/
theorem status_line_iff (onResponse : Callback) (earlier : List Incoming) (r : Response) :
    ∃ s q, earlier.foldlM Incoming.serve (HttpSession.client onResponse) = some s ∧
      s.responded r.toIncoming = some q ∧ q.status = r.line.reason ∧
      (q.Carries r.line ↔
        r.line.reason ≠ [] ∨ r.statusCode = r.line.statusCode.toUInt32) := by
  have hready : (HttpSession.client onResponse).callback = some onResponse := rfl
  refine ⟨_, _, HttpSession.run_messages hready earlier, HttpSession.client_responded ?_
    ((HttpSession.afterAll_callback _ _).trans hready) _, ?_, r.received_carries_iff⟩
  · exact HttpSession.afterAll_side _ _
  · exact (Incoming.received_status _).trans r.reason

def noReason : Response where
  parser := ⟨200, 1, 1⟩
  head := ⟨[], [], []⟩
  body := []
  framing := .contentLength
  method := 0
  statusCode := 0
  onBody := none
  line := ⟨200, []⟩
  code := rfl
  reason := rfl
  silent := fun _ => rfl

theorem status_line_lost : ∃ q, (HttpSession.client 1).responded noReason.toIncoming = some q ∧
    q.statusCode = 0 ∧ noReason.line.statusCode = 200 ∧ ¬ q.Carries noReason.line := by
  have h : ((HttpSession.client 1).responded noReason.toIncoming).map HttpResponse.statusCode =
      some 0 := by decide
  obtain ⟨q, hq, hcode⟩ := Option.map_eq_some_iff.mp h
  refine ⟨q, hq, hcode, rfl, fun hcarries => ?_⟩
  exact absurd (hcode.symm.trans hcarries.statusCode) (by decide)

end Hwnet.Http
