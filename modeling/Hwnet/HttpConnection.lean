import Hwnet.HttpRequest
import Hwnet.HttpMessages

set_option autoImplicit false

/-!
# Messages on a connection

The reads of the socket cut the calls of the parser anywhere. An end of file is an error to the
socket and a reason to close to the session; the parser is not told of it.
-/
namespace Hwnet.Http

/-- What one call of `read` gives. For data, the callbacks that the parser makes of it, its length,
and how much of it was parsed. -/
inductive Read where
  | data (calls : List (Parser × Call)) (n nparsed : ℕ)
  | again
  | eof
  | error
  deriving DecidableEq, Repr

namespace Read

def calls : Read → List (Parser × Call)
  | .data calls _ _ => calls
  | .again | .eof | .error => []

/-- The connection stays open and what it brought was parsed. -/
def Fine : Read → Prop
  | .data _ n nparsed => nparsed = n
  | .again => True
  | .eof | .error => False

end Read

def HttpSession.execute (s : HttpSession) (calls : List (Parser × Call)) : Option HttpSession :=
  calls.foldlM (fun s call => s.handle call.1 call.2) s

structure Connection where
  session : HttpSession
  closed : Bool

namespace Connection

def close (c : Connection) : Connection := { c with closed := true }

def onError (c : Connection) : Connection := c.close

def onClose (c : Connection) : Connection :=
  { c with session := { c.session with onRequest := none } }

def onData (c : Connection) (calls : List (Parser × Call)) (n nparsed : ℕ) :
    Option Connection := do
  let session ← c.session.execute calls
  let c := { c with session }
  return if nparsed ≠ n then c.onError else c

def recvInWorker (c : Connection) (read : Read) : Option Connection := do
  if c.closed then
    return c
  let c ←
    match read with
    | .data calls n nparsed => c.onData calls n nparsed
    | .again => some c
    | .eof | .error => some c.onError
  return if c.closed then c.onClose else c

def start (side : Side) (cb : Callback) : Connection where
  session :=
    match side with
    | .ServerSide => HttpSession.server cb
    | .ClientSide => HttpSession.client cb
  closed := false

end Connection

def stream (ms : List Incoming) : List (Parser × Call) :=
  ms.flatMap fun m => m.calls.map (m.parser, ·)

def Event.packet : Event → Option ℕ
  | .request _ p | .response _ p => some p
  | .body _ _ => none

/-- The calls of a body callback after packet `p` was handed out and before the next one is. -/
def bodyCalls (log : List Event) (p : ℕ) : List Event :=
  ((log.dropWhile fun e => e.packet ≠ some p).drop 1).takeWhile fun e => e.packet = none

def Incoming.sent (m : Incoming) : Bytes :=
  match m.framing with
  | .contentLength | .chunked _ | .untilClose => m.body.flatten
  | .upgrade rest | .overflow rest => m.body.flatten ++ rest
  | .headOnly _ => []

def Incoming.Delivered (m : Incoming) (cb : Callback) (ended : Prop) [Decidable ended]
    (events : List Event) : Prop :=
  ∃ pieces : List Bytes, pieces.flatten = m.sent ∧
    events = pieces.map (fun bytes => .body cb (some bytes)) ++
      if ended then [.body cb none] else []

/-- A body that lasts until the close ends when the close is seen. -/
def Incoming.Ended (m : Incoming) (reads : List Read) : Prop :=
  m.framing = .untilClose → .eof ∈ reads

instance (m : Incoming) (reads : List Read) : Decidable (m.Ended reads) :=
  inferInstanceAs (Decidable (_ → _))

/-- The parser reads the body to its end, and does so before the close. -/
def Incoming.ReadWhole (m : Incoming) (reads : List Read) : Prop :=
  match m.framing with
  | .contentLength | .chunked _ => True
  | .untilClose => .eof ∉ reads
  | .upgrade rest => rest = []
  | .overflow _ | .headOnly _ => False

/-! ## Cuts -/

/-- The calls of a message before the end of its header block. -/
def Call.heads : Call → Bool
  | .headersComplete _ | .body _ | .messageComplete => false
  | _ => true

def Begins (calls : List (Parser × Call)) : Prop :=
  ∀ call ∈ calls.head?, ∃ method statusCode, call.2 = .messageBegin method statusCode

/-- Messages begin, and the header block of none comes to its end. -/
structure Opens (calls : List (Parser × Call)) : Prop where
  heads : ∀ call ∈ calls, call.2.heads = true
  begins : Begins calls

theorem Begins.append_left {cs ds : List (Parser × Call)} (h : Begins (cs ++ ds)) : Begins cs := by
  cases cs with
  | nil => exact fun call hcall => nomatch hcall
  | cons c cs => exact h

namespace HttpSession

variable {s : HttpSession}

theorem onPacket_heads (f : HttpPacket → HttpPacket) (hsome : s.packet.isSome = true) :
    ∃ t, s.onPacket f = some t ∧ t.log = s.log ∧ t.packet.isSome = true := by
  obtain ⟨p, hp⟩ := Option.isSome_iff_exists.mp hsome
  refine ⟨{ s with packets := s.packets.modify p f }, ?_, rfl, hsome⟩
  simp [HttpSession.onPacket, hp]

theorem handle_heads {call : Parser × Call} (heads : call.2.heads = true)
    (begun : s.packet.isSome = true ∨ Begins [call]) :
    ∃ t, s.handle call.1 call.2 = some t ∧ t.log = s.log ∧ t.packet.isSome = true := by
  obtain ⟨parser, call⟩ := call
  cases call with
  | messageBegin => exact ⟨_, rfl, rfl, rfl⟩
  | url | status | headerField | headerValue =>
    refine onPacket_heads _ (begun.resolve_right fun h => ?_)
    obtain ⟨method, statusCode, hcall⟩ := h _ rfl
    cases hcall
  | headersComplete | body | messageComplete => cases heads

theorem execute_heads {calls : List (Parser × Call)}
    (heads : ∀ call ∈ calls, call.2.heads = true)
    (begun : s.packet.isSome = true ∨ Begins calls) :
    ∃ t, s.execute calls = some t ∧ t.log = s.log ∧
      (s.packet.isSome = true ∨ calls ≠ [] → t.packet.isSome = true) := by
  induction calls generalizing s with
  | nil => exact ⟨s, rfl, rfl, fun h => h.resolve_right fun hne => hne rfl⟩
  | cons call calls ih =>
    obtain ⟨u, hu, hlog, hsome⟩ := handle_heads (heads call List.mem_cons_self) begun
    obtain ⟨t, ht, hlast, hpacket⟩ := ih
      (fun call hcall => heads call (List.mem_cons_of_mem _ hcall)) (.inl hsome)
    refine ⟨t, ?_, hlast.trans hlog, fun _ => hpacket (.inl hsome)⟩
    rw [execute, List.foldlM_cons, hu]
    exact ht

theorem execute_append (cs ds : List (Parser × Call)) :
    s.execute (cs ++ ds) = (s.execute cs).bind (execute · ds) := by
  simp only [execute, List.foldlM_append, Option.bind_eq_bind]

theorem execute_stream (ms : List Incoming) :
    s.execute (stream ms) = ms.foldlM Incoming.serve s := by
  have hmessage (m : Incoming) (s : HttpSession) :
      s.execute (m.calls.map (m.parser, ·)) = m.serve s := by
    rw [execute, List.foldlM_map]
    rfl
  induction ms generalizing s with
  | nil => rfl
  | cons m ms ih =>
    rw [stream, List.flatMap_cons, execute_append, hmessage, List.foldlM_cons]
    exact congrArg (Option.bind (m.serve s)) (funext fun t => ih)

end HttpSession

namespace Connection

variable {c : Connection}

theorem recvInWorker_fine (opened : c.closed = false) {r : Read} (fine : r.Fine) :
    c.recvInWorker r = (c.session.execute r.calls).map fun session => { c with session } := by
  cases r with
  | data calls n nparsed =>
    have hparsed : nparsed = n := fine
    simp only [recvInWorker, opened, onData, hparsed, Read.calls]
    cases c.session.execute calls <;> simp
  | again =>
    cases c
    cases opened
    rfl
  | eof | error => exact fine.elim

/-- However the calls are cut into reads, the session is that of the calls. -/
theorem recvInWorker_reads (opened : c.closed = false) {reads : List Read}
    (fine : ∀ r ∈ reads, r.Fine) : reads.foldlM recvInWorker c =
      (c.session.execute (reads.flatMap Read.calls)).map fun session => { c with session } := by
  induction reads generalizing c with
  | nil => rfl
  | cons r reads ih =>
    rw [List.foldlM_cons, recvInWorker_fine opened (fine r List.mem_cons_self),
      List.flatMap_cons, HttpSession.execute_append]
    cases c.session.execute r.calls with
    | none => rfl
    | some session =>
      exact ih (c := { c with session }) opened fun x hx => fine x (List.mem_cons_of_mem _ hx)

/-- Whether all of a read was parsed shows in no callback. -/
theorem recvInWorker_log (opened : c.closed = false) (r : Read) :
    (c.recvInWorker r).map (·.session.log) = (c.session.execute r.calls).map (·.log) := by
  cases r with
  | data calls n nparsed =>
    simp only [recvInWorker, opened, onData, Read.calls]
    cases c.session.execute calls with
    | none => rfl
    | some session => by_cases h : nparsed = n <;> simp [h, onError, close, onClose]
  | again | eof | error => simp [recvInWorker, opened, Read.calls, HttpSession.execute, onError,
      close, onClose]

/-- As long as all reads but the last are parsed to their ends. -/
theorem recvInWorker_reads_log (opened : c.closed = false) {reads : List Read}
    (fine : ∀ r ∈ reads.dropLast, r.Fine) :
    (reads.foldlM recvInWorker c).map (·.session.log) =
      (c.session.execute (reads.flatMap Read.calls)).map (·.log) := by
  rcases List.eq_nil_or_concat reads with rfl | ⟨init, last, rfl⟩
  · rfl
  · rw [List.concat_eq_append, List.dropLast_concat] at fine
    rw [List.concat_eq_append, List.foldlM_append, recvInWorker_reads opened fine,
      List.flatMap_append, List.flatMap_singleton, HttpSession.execute_append]
    cases c.session.execute (init.flatMap Read.calls) with
    | none => rfl
    | some session =>
      simp only [Option.map_some, Option.bind_eq_bind, Option.bind_some, List.foldlM_cons,
        List.foldlM_nil, Option.pure_def, Option.bind_fun_some]
      exact recvInWorker_log (c := { c with session }) opened last

theorem recvInWorker_closed (closed : c.closed = true) (reads : List Read) :
    reads.foldlM recvInWorker c = some c := by
  induction reads with
  | nil => rfl
  | cons r reads ih =>
    have hread : c.recvInWorker r = some c := by simp [recvInWorker, closed]
    rw [List.foldlM_cons, hread]
    exact ih

/-- What a read of an open connection does to its session, whether it closes the connection. -/
theorem recvInWorker_session (opened : c.closed = false) (r : Read) {s : HttpSession}
    (h : c.session.execute r.calls = some s) :
    ∃ t, c.recvInWorker r = some t ∧ t.session.log = s.log ∧ t.session.packet = s.packet := by
  cases r with
  | data calls n nparsed =>
    have hcalls : c.session.execute calls = some s := h
    simp only [recvInWorker, opened, onData, hcalls]
    by_cases hparsed : nparsed = n <;> simp [hparsed, onError, close, onClose]
  | again | eof | error =>
    cases h
    simp [recvInWorker, opened, onError, close, onClose]

/-- Nothing is handed out before a header block is at its end. -/
theorem recvInWorker_opens {reads : List Read}
    (heads : ∀ call ∈ reads.flatMap Read.calls, call.2.heads = true)
    (begun : c.session.packet.isSome = true ∨ Begins (reads.flatMap Read.calls)) :
    ∃ t, reads.foldlM recvInWorker c = some t ∧ t.session.log = c.session.log := by
  induction reads generalizing c with
  | nil => exact ⟨c, rfl, rfl⟩
  | cons r reads ih =>
    cases hc : c.closed with
    | true => exact ⟨c, recvInWorker_closed hc _, rfl⟩
    | false =>
      rw [List.flatMap_cons] at heads begun
      obtain ⟨s, hs, hlog, hpacket⟩ := HttpSession.execute_heads (s := c.session)
        (fun call hcall => heads call (List.mem_append_left _ hcall))
        (begun.imp_right fun h => h.append_left)
      obtain ⟨u, hu, hulog, hupacket⟩ := recvInWorker_session hc r hs
      obtain ⟨t, ht, hlast⟩ := ih (c := u)
        (fun call hcall => heads call (List.mem_append_right _ hcall)) (by
          rw [hupacket]
          rcases begun with hsome | hbegins
          · exact .inl (hpacket (.inl hsome))
          · cases hcalls : r.calls with
            | nil => exact .inr (by simpa [hcalls] using hbegins)
            | cons x xs => exact .inl (hpacket (.inr (by simp [hcalls]))))
      exact ⟨t, by rw [List.foldlM_cons, hu]; exact ht, hlast.trans (hulog.trans hlog)⟩

theorem start_ready (side : Side) (cb : Callback) :
    (start side cb).session.callback = some cb := by
  cases side <;> rfl

theorem start_empty (side : Side) (cb : Callback) :
    (start side cb).session.log = [] ∧ (start side cb).session.packets = [] := by
  cases side <;> exact ⟨rfl, rfl⟩

end Connection

/-! ## The part of the log that belongs to a message -/

theorem bodyEvents_packet {m : Incoming} {e : Event} (mem : e ∈ m.bodyEvents) :
    e.packet = none := by
  unfold Incoming.bodyEvents at mem
  split at mem
  · cases mem
  · rcases List.mem_append.mp mem with h | h <;>
      obtain ⟨_, -, rfl⟩ := List.mem_map.mp h <;> rfl

theorem bodyCalls_append {before own rest : List Event} {e : Event} {p : ℕ}
    (earlier : ∀ x ∈ before, x.packet ≠ some p) (first : e.packet = some p)
    (body : ∀ x ∈ own, x.packet = none) (later : ∀ x ∈ rest.head?, x.packet ≠ none) :
    bodyCalls (before ++ e :: (own ++ rest)) p = own := by
  have hdrop : (before ++ e :: (own ++ rest)).dropWhile (fun e => e.packet ≠ some p) =
      e :: (own ++ rest) := by
    rw [List.dropWhile_append_of_pos fun x hx => by simpa using earlier x hx,
      List.dropWhile_cons_of_neg (by simp [first])]
  have htake : rest.takeWhile (fun e => e.packet = none) = [] := by
    cases rest with
    | nil => rfl
    | cons x rest => exact List.takeWhile_cons_of_neg (by simpa using later x rfl)
  rw [bodyCalls, hdrop]
  show (own ++ rest).takeWhile _ = own
  rw [List.takeWhile_append_of_pos fun x hx => by simpa using body x hx, htake, List.append_nil]

namespace HttpSession

variable {s : HttpSession}

theorem announce_packet (cb : Callback) (p : ℕ) : (s.announce cb p).packet = some p := by
  unfold announce
  cases s.side <;> rfl

def Logged (s : HttpSession) : Prop :=
  ∀ e ∈ s.log, ∀ p, e.packet = some p → p < s.packets.length

theorem Logged.after (h : s.Logged) (cb : Callback) (m : Incoming) : (s.after cb m).Logged := by
  intro e he p hp
  have hlength : (s.after cb m).packets.length = s.packets.length + 1 := by
    simp [HttpSession.after]
  rw [hlength]
  rcases List.mem_append.mp he with he | he
  · exact Nat.lt_succ_of_lt (h e he p hp)
  · rcases List.mem_cons.mp he with rfl | he
    · rw [announce_packet] at hp
      exact Option.some.inj hp ▸ Nat.lt_succ_self _
    · rw [bodyEvents_packet he] at hp
      cases hp

theorem Logged.afterAll (h : s.Logged) (cb : Callback) (ms : List Incoming) :
    (ms.foldl (·.after cb ·) s).Logged := by
  induction ms generalizing s with
  | nil => exact h
  | cons m ms ih => exact ih (h.after cb m)

theorem afterAll_packets (cb : Callback) (ms : List Incoming) :
    (ms.foldl (·.after cb ·) s).packets.length = s.packets.length + ms.length := by
  induction ms generalizing s with
  | nil => rfl
  | cons m ms ih =>
    rw [List.foldl_cons, ih, List.length_cons]
    simp only [after, List.length_append, List.length_singleton]
    omega

theorem afterAll_log (cb : Callback) (ms : List Incoming) : ∃ rest,
    (ms.foldl (·.after cb ·) s).log = s.log ++ rest ∧ ∀ e ∈ rest.head?, e.packet ≠ none := by
  induction ms generalizing s with
  | nil => exact ⟨[], (List.append_nil _).symm, nofun⟩
  | cons m ms ih =>
    obtain ⟨rest, hlog, -⟩ := ih (s := s.after cb m)
    refine ⟨s.announce cb s.packets.length :: m.bodyEvents ++ rest, ?_, ?_⟩
    · rw [List.foldl_cons, hlog]
      exact List.append_assoc _ _ _
    · rintro e ⟨⟩
      rw [announce_packet]
      nofun

theorem bodyCalls_messages (logged : s.Logged) (cb : Callback) (before rest : List Incoming)
    (m : Incoming) : bodyCalls ((before ++ m :: rest).foldl (·.after cb ·) s).log
      (s.packets.length + before.length) = m.bodyEvents := by
  rw [List.foldl_append, List.foldl_cons]
  obtain ⟨later, hlog, hhead⟩ :=
    afterAll_log (s := (before.foldl (·.after cb ·) s).after cb m) cb rest
  have hpackets := afterAll_packets (s := s) cb before
  have hearlier := logged.afterAll cb before
  rw [hlog, HttpSession.after, List.append_assoc, List.cons_append]
  refine bodyCalls_append (fun e he hp => ?_) ?_ (fun e he => bodyEvents_packet he) hhead
  · exact absurd (hearlier e he _ hp) (by omega)
  · rw [announce_packet, hpackets]

end HttpSession

/-! ## Bodies -/

/-- The body and its end are announced where the parser reads the one to the other. -/
theorem Incoming.delivered_iff {m : Incoming} {cb : Callback} (hears : m.onBody = some cb)
    (nonempty : m.framing = .headOnly true → m.body.flatten ≠ []) (reads : List Read) :
    m.Delivered cb (m.Ended reads) m.bodyEvents ↔ m.ReadWhole reads := by
  have hevents : m.bodyEvents = m.body.map (fun bytes => .body cb (some bytes)) ++
      m.framing.complete.map fun _ => .body cb none := by
    rw [bodyEvents, hears]
  -- the end is missing where it should have been announced
  have unended (ended : m.Ended reads) (none : m.framing.complete = []) :
      ¬ m.Delivered cb (m.Ended reads) m.bodyEvents := by
    rintro ⟨pieces, -, hpieces⟩
    have hmem : Event.body cb .none ∈ m.bodyEvents := by
      rw [hpieces, if_pos ended]
      exact List.mem_append_right _ (List.mem_singleton_self _)
    rw [hevents, none] at hmem
    simp at hmem
  -- both the pieces and the end are those announced
  have announced (ended : m.Ended reads) (complete : m.framing.complete = [.messageComplete]) :
      m.Delivered cb (m.Ended reads) m.bodyEvents ↔ m.body.flatten = m.sent := by
    rw [hevents, complete]
    unfold Delivered
    rw [if_pos ended]
    constructor
    · rintro ⟨pieces, hflat, hpieces⟩
      have hinj : Function.Injective fun bytes : Bytes => Event.body cb (some bytes) :=
        fun _ _ h => by simpa using h
      rw [← hflat, List.map_injective_iff.mpr hinj (List.append_cancel_right hpieces)]
    · exact fun h => ⟨m.body, h, rfl⟩
  have apart (other : m.framing ≠ .untilClose) : m.Ended reads := fun h => absurd h other
  unfold ReadWhole
  cases hframing : m.framing with
  | contentLength | chunked trailers =>
    have hsent : m.body.flatten = m.sent := by rw [sent, hframing]
    simpa only [iff_true] using
      (announced (apart (by simp [hframing])) (by rw [hframing]; rfl)).mpr hsent
  | untilClose =>
    constructor
    · intro h heof
      exact unended (fun _ => heof) (by rw [hframing]; rfl) h
    · intro heof
      have hopen : ¬ m.Ended reads := fun hended => heof (hended hframing)
      refine ⟨m.body, by rw [sent, hframing], ?_⟩
      rw [hevents, if_neg hopen, hframing]
      rfl
  | upgrade rest =>
    rw [announced (apart (by simp [hframing])) (by rw [hframing]; rfl), sent, hframing]
    simp
  | overflow rest =>
    exact iff_of_false (unended (apart (by simp [hframing])) (by rw [hframing]; rfl)) id
  | headOnly complete =>
    cases complete with
    | false => exact iff_of_false (unended (apart (by simp [hframing])) (by rw [hframing]; rfl)) id
    | true =>
      rw [announced (apart (by simp [hframing])) (by rw [hframing]; rfl), sent, hframing]
      exact iff_of_false (nonempty hframing) id

def unbounded : Incoming where
  parser := ⟨200, 1, 1⟩
  head := ⟨[], [ascii "OK"], []⟩
  body := [ascii "a", ascii "b"]
  framing := .untilClose
  method := 0
  statusCode := 0
  onBody := some 2

def bounded : Incoming := { unbounded with framing := .chunked [] }

def upgraded : Incoming := { unbounded with body := [], framing := .upgrade (ascii "ab") }

def twoReads : List Read :=
  [.data ((stream [bounded]).take 3) 17 17,
    .data ((stream [bounded]).drop 3 ++ stream [upgraded]) 90 88]

end Hwnet.Http
