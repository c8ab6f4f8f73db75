import Hwnet.HttpConnection
import Hwnet.HttpParserReads
import Hwnet.Machine

set_option autoImplicit false

/-!
# The parser of a session

The calls that a session gets are those that its parser makes of the bytes it reads.
-/
namespace Hwnet.Http

open Slices (Control)

/-- The call that a report is. What the memory of a new packet holds and the body callback that the
user's callback sets are not the parser's. -/
def Makes : Report → Parser × Call → Prop
  | .data .url slice, (_, .url at_) => at_ = slice
  | .data (.status code) slice, (parser, .status at_) => at_ = slice ∧ parser.statusCode = code
  | .data .headerField slice, (_, .headerField at_) => at_ = slice
  | .data .headerValue slice, (_, .headerValue at_) => at_ = slice
  | .data .body slice, (_, .body at_) => at_ = slice
  | .note .messageBegin, (_, .messageBegin _ _) => True
  | .note (.headersComplete major minor), (parser, .headersComplete _) =>
    parser.httpMajor = major ∧ parser.httpMinor = minor
  | .note .messageComplete, (_, .messageComplete) => True
  | _, _ => False

inductive Input where
  | data (bytes : Bytes)
  | again
  | eof
  | error
  deriving DecidableEq, Repr

structure Endpoint where
  parser : HttpParser
  connection : Connection

def Side.parserType : Side → ParserType
  | .ServerSide => .request
  | .ClientSide => .response

namespace Endpoint

def start (side : Side) (cb : Callback) : Endpoint where
  parser := HttpParser.init side.parserType
  connection := Connection.start side cb

def read (c : Endpoint) (calls : List (Parser × Call)) : Input → Read
  | .data bytes => .data calls bytes.length (c.parser.execute bytes).consumed
  | .again => .again
  | .eof => .eof
  | .error => .error

/-- One `read` of the worker. It fails where the session uses a null pointer or calls an empty
function. -/
def recv (c : Endpoint) (a : Input × List (Parser × Call)) : Option Endpoint := do
  if c.connection.closed then
    return c
  let connection ← c.connection.recvInWorker (c.read a.2 a.1)
  match a.1 with
  | .data bytes => return ⟨(c.parser.execute bytes).state, connection⟩
  | .again | .eof | .error => return { c with connection }

/-- The calls are those of the parser, and a read that brings data brings some. -/
def Parses (c : Endpoint) : Input × List (Parser × Call) → Prop
  | (.data bytes, calls) =>
    bytes ≠ [] ∧ List.Forall₂ Makes (c.parser.execute bytes).reports calls
  | (.again, _) | (.eof, _) | (.error, _) => True

end Endpoint

namespace HttpSession

variable {s : HttpSession} {q q' : Phase}

structure Serves (s : HttpSession) (q : Phase) : Prop where
  packet : q ≠ .idle → ∃ k : HttpPacket, s.current = some k
  ready : s.callback ≠ none

theorem Serves.receiving (h : s.Serves q) (hq : q ≠ .idle) : ∃ k : HttpPacket, s.Receiving k := by
  obtain ⟨k, hk⟩ := h.packet hq
  exact ⟨k, hk, h.ready⟩

theorem Receiving.serves {k : HttpPacket} (h : s.Receiving k) : s.Serves q' :=
  ⟨fun _ => ⟨k, h.current⟩, h.ready⟩

theorem Serves.onPacket (h : s.Serves q) (hq : q ≠ .idle) (f : HttpPacket → HttpPacket) :
    ∃ t : HttpSession, s.onPacket f = some t ∧ t.Serves q' := by
  obtain ⟨k, hk⟩ := h.receiving hq
  obtain ⟨t, ht, hreceiving⟩ := hk.onPacket f
  exact ⟨t, ht, hreceiving.serves⟩

theorem onPacket_callback {t : HttpSession} {f : HttpPacket → HttpPacket}
    (h : s.onPacket f = some t) : t.callback = s.callback := by
  obtain ⟨p, -, rfl⟩ := Option.map_eq_some_iff.mp h
  rfl

theorem callback_headersComplete {parser : Parser} {t : HttpSession} {onBody : Option Callback}
    (h : s.onHeadersComplete parser onBody = some t) : t.callback = s.callback := by
  simp only [onHeadersComplete, Option.bind_eq_bind, Option.bind_eq_some_iff] at h
  obtain ⟨u, hu, p, -, h⟩ := h
  split at h <;> obtain ⟨event, -, v, hv, hlast⟩ := by
    simpa only [Option.bind_eq_some_iff] using h
  all_goals
    obtain rfl := Option.some.inj hlast
    exact (onPacket_callback hv).trans (onPacket_callback hu)

theorem callBody_callback {t : HttpSession} {bytes : Option Bytes}
    (h : s.callBody bytes = some t) :
    t.callback = s.callback ∧ t.current = s.current := by
  simp only [callBody, Option.bind_eq_bind, Option.bind_eq_some_iff] at h
  obtain ⟨k, -, h⟩ := h
  split at h <;> obtain rfl := Option.some.inj h <;> exact ⟨rfl, rfl⟩

theorem Serves.callBody (h : s.Serves q) (hq : q ≠ .idle) (bytes : Option Bytes) :
    ∃ t : HttpSession, s.callBody bytes = some t ∧ t.Serves q' := by
  obtain ⟨k, hk⟩ := h.packet hq
  have hsome : ∃ t : HttpSession, s.callBody bytes = some t := by
    simp only [HttpSession.callBody, hk, Option.bind_eq_bind, Option.bind_some]
    split <;> exact ⟨_, rfl⟩
  obtain ⟨t, ht⟩ := hsome
  obtain ⟨hcallback, hcurrent⟩ := callBody_callback ht
  exact ⟨t, ht, fun _ => ⟨k, hcurrent.trans hk⟩, hcallback ▸ h.ready⟩

theorem Serves.messageComplete (h : s.Serves q) (hq : q ≠ .idle) :
    ∃ t : HttpSession, s.onMessageComplete = some t ∧ t.Serves .idle := by
  obtain ⟨u, hu, hserves⟩ : ∃ u : HttpSession, s.callBody none = some u ∧ u.Serves q :=
    h.callBody hq none
  exact ⟨{ u with packet := none }, by simp [onMessageComplete, hu], fun h => absurd rfl h,
    hserves.ready⟩

theorem Serves.headersComplete (h : s.Serves q) (hq : q ≠ .idle) (parser : Parser)
    (onBody : Option Callback) :
    ∃ t : HttpSession, s.onHeadersComplete parser onBody = some t ∧ t.Serves q' := by
  obtain ⟨k, hk⟩ := h.receiving hq
  obtain ⟨t, ht, hcurrent⟩ := hk.headersComplete parser onBody
  exact ⟨t, ht, fun _ => ⟨_, hcurrent⟩, callback_headersComplete ht ▸ h.ready⟩

theorem Serves.handle (h : s.Serves q) {r : Report} {a : Parser × Call} (makes : Makes r a)
    (reads : Phase.language.read q r = some q') :
    ∃ t : HttpSession, s.handle a.1 a.2 = some t ∧ t.Serves q' := by
  obtain ⟨parser, call⟩ := a
  have hidle (kind : Mark) : Phase.data .idle kind = none := by cases kind <;> rfl
  cases r with
  | data kind slice =>
    have hq : q ≠ .idle := by
      rintro rfl
      have hread : Phase.data .idle kind = some q' := reads
      simp [hidle] at hread
    cases kind <;> cases call <;> simp only [Makes] at makes
    · exact h.onPacket hq _
    · exact h.onPacket hq _
    · exact h.onPacket hq _
    · exact h.callBody hq _
    · exact h.onPacket hq _
  | note o =>
    cases o with
    | messageBegin =>
      cases call <;> simp only [Makes] at makes
      exact ⟨_, rfl, (messageBegin_receiving h.ready _ _).serves⟩
    | headersComplete major minor =>
      have hq : q ≠ .idle := by
        rintro rfl
        cases reads
      cases call <;> simp only [Makes] at makes
      exact h.headersComplete hq parser _
    | messageComplete =>
      have hq : q ≠ .idle := by
        rintro rfl
        cases reads
      have hq' : q' = .idle := by
        cases q <;> cases reads <;> rfl
      subst hq'
      cases call <;> simp only [Makes] at makes
      exact h.messageComplete hq

theorem Serves.execute (h : s.Serves q) {reports : List Report} {calls : List (Parser × Call)}
    (makes : List.Forall₂ Makes reports calls)
    (reads : Phase.language.reads q reports = some q') :
    ∃ t : HttpSession, s.execute calls = some t ∧ t.Serves q' := by
  induction makes generalizing s q with
  | nil =>
    obtain rfl := Option.some.inj reads
    exact ⟨s, rfl, h⟩
  | cons hmakes _ ih =>
    rw [Slices.Language.reads_cons] at reads
    obtain ⟨p, hp, hrest⟩ := Option.bind_eq_some_iff.mp reads
    obtain ⟨u, hu, hserves⟩ := h.handle hmakes hp
    obtain ⟨t, ht, hlast⟩ := ih hserves hrest
    refine ⟨t, ?_, hlast⟩
    rw [HttpSession.execute, List.foldlM_cons, hu]
    exact ht

end HttpSession

namespace Endpoint

variable {c t : Endpoint} {q : Phase}

def Agrees (c : Endpoint) : Prop :=
  c.connection.closed = false → ∃ q : Phase, c.parser.Fits q ∧ c.connection.session.Serves q

theorem start_agrees (side : Side) (cb : Callback) : (start side cb).Agrees := by
  refine fun _ => ⟨.idle, HttpParser.fits_init _, fun h => absurd rfl h, ?_⟩
  cases side <;> simp [start, Connection.start, HttpSession.callback, HttpSession.server,
    HttpSession.client]

theorem onData_agrees (hfits : c.parser.Fits q) (serves : c.connection.session.Serves q)
    {bytes : Bytes} {calls : List (Parser × Call)} (parses : c.Parses (.data bytes, calls)) :
    ∃ session : HttpSession, c.connection.session.execute calls = some session ∧
      ((c.parser.execute bytes).consumed = bytes.length →
        ∃ q' : Phase, (c.parser.execute bytes).state.Fits q' ∧ session.Serves q') := by
  obtain ⟨hne, hmakes⟩ := parses
  obtain ⟨hfault, q', hreads, hlast⟩ := hfits.execute_sound hne
  obtain ⟨session, hsession, hserves⟩ := serves.execute hmakes hreads
  refine ⟨session, hsession, fun hconsumed => ⟨q', hlast ?_, hserves⟩⟩
  obtain ⟨-, -, herror⟩ := hfits.execute_consumed hne
  cases hend : (c.parser.execute bytes).ending with
  | next => exact Or.inl rfl
  | exit => exact Or.inr rfl
  | error => exact absurd hconsumed (Nat.ne_of_lt (herror hend).1)
  | fault => exact absurd hend hfault

theorem Agrees.recv (h : c.Agrees) {a : Input × List (Parser × Call)} (parses : c.Parses a) :
    ∃ t : Endpoint, c.recv a = some t ∧ t.Agrees := by
  cases hclosed : c.connection.closed with
  | true =>
    refine ⟨c, by simp [Endpoint.recv, hclosed], fun hopen => ?_⟩
    rw [hclosed] at hopen
    cases hopen
  | false =>
    obtain ⟨q, hfits, hserves⟩ := h hclosed
    obtain ⟨input, calls⟩ := a
    cases input with
    | data bytes =>
      obtain ⟨session, hsession, hnext⟩ := onData_agrees hfits hserves parses
      by_cases hparsed : (c.parser.execute bytes).consumed = bytes.length
      · refine ⟨⟨(c.parser.execute bytes).state, { c.connection with session }⟩, ?_,
          fun _ => hnext hparsed⟩
        simp [Endpoint.recv, hclosed, Connection.recvInWorker, Connection.onData, read, hsession,
          hparsed]
      · refine ⟨⟨(c.parser.execute bytes).state,
          { session := { session with onRequest := none }, closed := true }⟩, ?_,
          fun hopen => by cases hopen⟩
        simp [Endpoint.recv, hclosed, Connection.recvInWorker, Connection.onData, read, hsession,
          hparsed, Connection.onError, Connection.close, Connection.onClose]
    | again =>
      refine ⟨c, ?_, h⟩
      simp [Endpoint.recv, hclosed, Connection.recvInWorker, read]
    | eof | error =>
      refine ⟨{ c with connection := (c.connection.onError).onClose }, ?_,
        fun hopen => by cases hopen⟩
      simp [Endpoint.recv, hclosed, Connection.recvInWorker, read, Connection.onError,
        Connection.close]

/-- Whatever a peer sends, and however it is read, the session never uses a null packet or an empty
callback, and the parser of an open socket is never left in an error. -/
theorem recv_safe (side : Side) (cb : Callback) {c : Endpoint}
    (run : Machine.Runs recv Parses (start side cb) c) :
    (c.connection.closed = false → c.parser.httpErrno = .ok) ∧
      ∀ a : Input × List (Parser × Call), c.Parses a → ∃ t : Endpoint, c.recv a = some t := by
  have hagrees : c.Agrees := run.invariant (start_agrees side cb)
    fun u v a _ hu parses hstep => by
      obtain ⟨t, ht, hlast⟩ := hu.recv parses
      rw [hstep] at ht
      exact Option.some.inj ht ▸ hlast
  refine ⟨fun hopen => ?_, fun a parses => ?_⟩
  · obtain ⟨q, hfits, -⟩ := hagrees hopen
    exact hfits.errno
  · obtain ⟨t, ht, -⟩ := hagrees.recv parses
    exact ⟨t, ht⟩

def readGet : Input × List (Parser × Call) :=
  (.data (ascii "GET /a HTTP/1.1\n\n"),
    [(⟨0, 0, 0⟩, .messageBegin 0 0), (⟨0, 0, 0⟩, .url (ascii "/a")),
      (⟨0, 1, 1⟩, .headersComplete none), (⟨0, 1, 1⟩, .messageComplete)])

theorem recv_safe_get : ∃ c : Endpoint, (start .ServerSide 1).recv readGet = some c ∧
    ((c.connection.closed = false → c.parser.httpErrno = .ok) ∧
      ∀ a : Input × List (Parser × Call), c.Parses a → ∃ t : Endpoint, c.recv a = some t) := by
  have hreports : ((start .ServerSide 1).parser.execute (ascii "GET /a HTTP/1.1\n\n")).reports =
      [.note .messageBegin, .data .url (ascii "/a"), .note (.headersComplete 1 1),
        .note .messageComplete] := by
    decide +kernel
  have hparses : (start .ServerSide 1).Parses readGet := by
    refine ⟨by decide, ?_⟩
    rw [hreports]
    exact .cons trivial (.cons rfl (.cons ⟨rfl, rfl⟩ (.cons trivial .nil)))
  obtain ⟨c, hc, -⟩ := (start_agrees .ServerSide 1).recv hparses
  exact ⟨c, hc, recv_safe .ServerSide 1 (Machine.Runs.next .refl hparses hc)⟩

end Endpoint

end Hwnet.Http
