import Hwnet.HttpRequest
import Hwnet.HttpResponse
import Hwnet.TCPSocketDrained
import Hwnet.TCPSocketFullWrite
import Hwnet.TCPSocketOnward

set_option autoImplicit false

/-!
# Writing headers and bodies

`WriteHeader` and `WriteBody` put their `writeOk` into the one slot the socket has for a flush
callback and then send, in two sections of the socket. The calls may be made in any thread, and the
socket may do anything else in between but have its flush callback set.
-/
namespace Hwnet.Http

open TCPSocket (Build Onward acceptedBytes writtenBytes followsUp allWritten drained queues)

/-- What has become of the `Send` of a call; `queued` tells what had been accepted before it. -/
inductive WriteState where
  | sending
  | refused
  | queued (before : Bytes)
  deriving DecidableEq, Repr

structure Write where
  str : Bytes
  state : WriteState
  deriving DecidableEq, Repr

/-- The flush callback number `k` is the `writeOk` of the call `k`. -/
structure Writer where
  s : TCPSocket.Sys
  writes : List Write

namespace Writer

def new : Writer := ⟨.init, []⟩

def write (b : Build) (r : Writer) (str : Bytes) (writeOk : Bool) : Option Writer :=
  let s := if writeOk then TCPSocket.step b r.s (.setFlushCallback (some r.writes.length))
    else some r.s
  s.map fun s => ⟨s, r.writes ++ [⟨str, .sending⟩]⟩

def accepting (r : Writer) : Bool :=
  !(r.s.world.sock.closed || r.s.world.sock.shutdown || r.s.world.sock.closedOnFlush)

def send (b : Build) (r : Writer) (k : ℕ) : Option Writer :=
  match r.writes[k]? with
  | some ⟨str, .sending⟩ =>
    let state := if r.accepting then .queued (acceptedBytes r.s.world.log) else .refused
    (TCPSocket.step b r.s (.send (some ⟨str, 0, str.length⟩) 0)).map fun s =>
      ⟨s, r.writes.set k ⟨str, state⟩⟩
  | _ => none

end Writer

namespace HttpResponse

def writeHeader (b : Build) (q : HttpResponse) (r : Writer) (writeOk : Bool) : Option Writer :=
  (q.packet.makeHeader HttpPacket.response []).bind fun header => r.write b header writeOk

def writeBody (b : Build) (r : Writer) (body : Bytes) (writeOk : Bool) : Option Writer :=
  r.write b body writeOk

end HttpResponse

namespace HttpRequest

def writeHeader (b : Build) (q : HttpRequest) (r : Writer) (writeOk : Bool) : Option Writer :=
  (q.packet.makeHeader HttpPacket.request []).bind fun header => r.write b header writeOk

def writeBody (b : Build) (r : Writer) (body : Bytes) (writeOk : Bool) : Option Writer :=
  r.write b body writeOk

end HttpRequest

namespace Writer

inductive Label where
  | responseHeader (q : HttpResponse) (writeOk : Bool)
  | responseBody (body : Bytes) (writeOk : Bool)
  | requestHeader (q : HttpRequest) (writeOk : Bool)
  | requestBody (body : Bytes) (writeOk : Bool)
  | send (k : ℕ)
  | socket (a : TCPSocket.Label)

def step (b : Build) (r : Writer) : Label → Option Writer
  | .responseHeader q writeOk => q.writeHeader b r writeOk
  | .responseBody body writeOk => HttpResponse.writeBody b r body writeOk
  | .requestHeader q writeOk => q.writeHeader b r writeOk
  | .requestBody body writeOk => HttpRequest.writeBody b r body writeOk
  | .send k => r.send b k
  | .socket a =>
    if a.setsFlush then none else (TCPSocket.intStep b r.s a).map fun s => { r with s }

def Label.call : Label → Option (Bytes × Bool)
  | .responseHeader q writeOk =>
    (q.packet.makeHeader HttpPacket.response []).map fun header => (header, writeOk)
  | .responseBody body writeOk | .requestBody body writeOk => some (body, writeOk)
  | .requestHeader q writeOk =>
    (q.packet.makeHeader HttpPacket.request []).map fun header => (header, writeOk)
  | .send _ | .socket _ => none

/-! ## The promise -/

def called (r : Writer) (k : ℕ) : ℕ := TCPSocket.flushesOf (fun cb => cb == k) r.s

end Writer

def Write.Written (c : Write) (log : List TCPSocket.Obs) : Prop :=
  c.str = [] ∨ ∃ before, c.state = .queued before ∧
    before ++ c.str <+: writtenBytes log

/-- The call has bytes, and they are not in the queue of the socket. -/
def Write.missing (c : Write) : Bool :=
  !c.str.isEmpty &&
    match c.state with
    | .queued _ => false
    | _ => true

namespace Writer

/-- A call puts its `writeOk` into the slot, its bytes are to follow, and something is still
queued. -/
def preempts (r : Writer) (a : Label) : Bool :=
  !drained r.s && a.call.any fun (str, writeOk) => writeOk && !str.isEmpty

/-- Bytes come into a drained queue while the slot holds the `writeOk` of another call. -/
def borrows (r : Writer) : Label → Bool
  | .send k =>
    drained r.s &&
      r.writes[k]?.any (fun c => queues r.s (.send (some ⟨c.str, 0, c.str.length⟩) 0)) &&
      r.s.world.sock.flushCallback.any fun i => i != k
  | .socket a => drained r.s && queues r.s a && r.s.world.sock.flushCallback.isSome
  | _ => false

/-- A batch of 2 GiB or more, for which `totalBytes` is no longer the number of bytes. -/
def overlong (r : Writer) : Label → Bool
  | .socket a => TCPSocket.overlong r.s a
  | _ => false

def mixes (r : Writer) (a : Label) : Bool := r.preempts a || r.borrows a || r.overlong a

/-! ## The invariant -/

structure Counted (b : Build) (r : Writer) : Prop where
  reach : TCPSocket.Reachable b r.s
  slot : ∀ k, r.s.world.sock.flushCallback = some k → k < r.writes.length
  queued : ∀ c ∈ r.writes, ∀ before, c.state = .queued before →
    before ++ c.str <+: acceptedBytes r.s.world.log
  once : ∀ k, r.called k ≤ 1
  written : ∀ k, 0 < r.called k → ∃ c, r.writes[k]? = some c ∧ c.Written r.s.world.log

/-- While the `writeOk` in the slot waits for its bytes, or has been called, nothing is queued. -/
structure Kept (b : Build) (r : Writer) : Prop extends Counted b r where
  waits : ∀ k, r.s.world.sock.flushCallback = some k →
    r.writes[k]?.any Write.missing = true ∨ 0 < r.called k → drained r.s = true

variable {b : Build} {r r' : Writer}

theorem written_mono {c : Write} {w w' : TCPSocket.World} (h : c.Written w.log)
    (on : Onward w w') : c.Written w'.log := by
  rcases h with hnil | ⟨before, hstate, hprefix⟩
  · exact .inl hnil
  · exact .inr ⟨before, hstate, hprefix.trans on.written⟩

theorem called_step {s' : TCPSocket.Sys} {a : TCPSocket.Label} (h : Counted b r)
    (hstep : TCPSocket.step b r.s a = some s') (k : ℕ) :
    called { r with s := s' } k = r.called k +
      (followsUp r.s a && allWritten r.s &&
        r.s.world.sock.flushCallback.any fun cb => cb == k).toNat :=
  TCPSocket.flushesOf_step _ (TCPSocket.step_sendStep hstep) (TCPSocket.reachable_unsent h.reach)
    (TCPSocket.reachable_alone (.next h.reach trivial hstep))

/-- Everything that was accepted has been written, so the bytes of a call that are queued have. -/
theorem Counted.settled (h : Counted b r) (all : allWritten r.s = true) {k : ℕ} {c : Write}
    (hc : r.writes[k]? = some c) (there : c.missing = false) : c.Written r.s.world.log := by
  have hall : acceptedBytes r.s.world.log = writtenBytes r.s.world.log :=
    of_decide_eq_true all
  cases hstr : c.str with
  | nil => exact .inl hstr
  | cons x rest =>
    cases hstate : c.state with
    | queued before =>
      refine .inr ⟨before, hstate, ?_⟩
      rw [← hall]
      exact h.queued c (List.mem_of_getElem? hc) before hstate
    | sending | refused =>
      simp [Write.missing, hstr, hstate] at there

/-- The section that takes the `writeOk` from the slot takes it for the first time, with its bytes
written: the queue is not drained when it begins. -/
theorem Kept.takes {a : TCPSocket.Label} {k : ℕ} (h : Kept b r)
    (takes : (followsUp r.s a && allWritten r.s &&
      r.s.world.sock.flushCallback.any fun cb => cb == k) = true) :
    r.called k = 0 ∧ ∃ c, r.writes[k]? = some c ∧ c.Written r.s.world.log := by
  simp only [Bool.and_eq_true] at takes
  obtain ⟨⟨hfollows, hall⟩, hslot⟩ := takes
  obtain ⟨cb, hcb, hk⟩ := (Option.any_eq_true _ _).mp hslot
  obtain rfl := eq_of_beq hk
  have hwaits : ¬ (r.writes[cb]?.any Write.missing = true ∨ 0 < r.called cb) := fun hw => by
    cases (h.waits cb hcb hw).symm.trans (TCPSocket.not_drained hfollows)
  obtain ⟨hthere, hfirst⟩ := not_or.mp hwaits
  have hlt := h.slot cb hcb
  have hwrite : r.writes[cb]? = some r.writes[cb] := List.getElem?_eq_getElem hlt
  rw [hwrite, Option.any_some, Bool.not_eq_true] at hthere
  exact ⟨by omega, _, hwrite, h.settled hall hwrite hthere⟩

theorem Kept.counted {s' : TCPSocket.Sys} {a : TCPSocket.Label} (h : Kept b r)
    (hstep : TCPSocket.step b r.s a = some s') (keeps : a.setsFlush = false) :
    Counted b { r with s := s' } := by
  have hon := TCPSocket.step_onward hstep keeps
  refine ⟨.next h.reach trivial hstep, fun k hk => ?_, fun c hc before hstate => ?_, fun k => ?_,
    fun k hk => ?_⟩
  · exact h.slot k (hon.slot.symm.trans hk)
  · exact (h.queued c hc before hstate).trans hon.accepted
  · rw [called_step h.toCounted hstep k]
    cases htakes : followsUp r.s a && allWritten r.s &&
        r.s.world.sock.flushCallback.any fun cb => cb == k with
    | false => exact h.once k
    | true =>
      obtain ⟨hfirst, -⟩ := h.takes htakes
      rw [hfirst]
      rfl
  · rw [called_step h.toCounted hstep k] at hk
    cases htakes : followsUp r.s a && allWritten r.s &&
        r.s.world.sock.flushCallback.any fun cb => cb == k with
    | false =>
      rw [htakes] at hk
      obtain ⟨c, hc, hwritten⟩ := h.written k hk
      exact ⟨c, hc, written_mono hwritten hon⟩
    | true =>
      obtain ⟨-, c, hc, hwritten⟩ := h.takes htakes
      exact ⟨c, hc, written_mono hwritten hon⟩

/-- A step that queues nothing leaves a drained queue drained, and so does the section that takes
the `writeOk` from the slot. -/
theorem Kept.drained_after {s' : TCPSocket.Sys} {a : TCPSocket.Label} {k : ℕ} (h : Kept b r)
    (hstep : TCPSocket.step b r.s a = some s') (quiet : drained r.s = true → queues r.s a = false)
    (hslot : r.s.world.sock.flushCallback = some k)
    (hwaits : r.writes[k]?.any Write.missing = true ∨ 0 < called { r with s := s' } k) :
    drained s' = true := by
  have hsend := TCPSocket.step_sendStep hstep
  have still (hbefore : r.writes[k]?.any Write.missing = true ∨ 0 < r.called k) :
      drained s' = true := by
    have hdrained := h.waits k hslot hbefore
    exact TCPSocket.drained_kept hsend (TCPSocket.reachable_ledger h.reach) hdrained
      (quiet hdrained)
  rcases hwaits with hmissing | hcalled
  · exact still (.inl hmissing)
  · rw [called_step h.toCounted hstep k] at hcalled
    cases htakes : followsUp r.s a && allWritten r.s &&
        r.s.world.sock.flushCallback.any fun cb => cb == k with
    | false =>
      rw [htakes] at hcalled
      exact still (.inr hcalled)
    | true =>
      simp only [Bool.and_eq_true] at htakes
      exact TCPSocket.drained_of_flush hsend (TCPSocket.reachable_unsent h.reach)
        (TCPSocket.reachable_alone (.next h.reach trivial hstep)) htakes.1.1 htakes.1.2

/-- A step of the socket that queues nothing behind the `writeOk` of a call. -/
theorem Kept.socket {s' : TCPSocket.Sys} {a : TCPSocket.Label} (h : Kept b r)
    (hstep : TCPSocket.step b r.s a = some s') (keeps : a.setsFlush = false)
    (own : r.borrows (.socket a) = false) : Kept b { r with s := s' } := by
  refine ⟨h.counted hstep keeps, fun k hk hwaits => ?_⟩
  have hslot := (TCPSocket.step_onward hstep keeps).slot.symm.trans hk
  refine h.drained_after hstep (fun hdrained => ?_) hslot hwaits
  simpa [borrows, hdrained, hslot] using own

theorem Counted.begun (h : Counted b r) (str : Bytes) :
    Counted b { r with writes := r.writes ++ [⟨str, .sending⟩] } := by
  refine ⟨h.reach, fun k hk => ?_, fun c hc before hstate => ?_, h.once, fun k hk => ?_⟩
  · exact Nat.lt_of_lt_of_le (h.slot k hk) (by simp)
  · rcases List.mem_append.mp hc with hc | hc
    · exact h.queued c hc before hstate
    · rw [List.mem_singleton.mp hc] at hstate
      cases hstate
  · obtain ⟨c, hc, hwritten⟩ := h.written k hk
    have hlt := (List.getElem?_eq_some_iff.mp hc).1
    exact ⟨c, (List.getElem?_append_left hlt).trans hc, hwritten⟩

theorem Counted.fresh (h : Counted b r) : r.called r.writes.length = 0 := by
  refine Nat.eq_zero_of_not_pos fun hcalled => ?_
  obtain ⟨c, hc, -⟩ := h.written _ hcalled
  exact absurd (List.getElem?_eq_some_iff.mp hc).1 (Nat.lt_irrefl _)

theorem kept_write {str : Bytes} {writeOk : Bool} (h : Kept b r)
    (behind : (!drained r.s && (writeOk && !str.isEmpty)) = false)
    (hwrite : r.write b str writeOk = some r') : Kept b r' := by
  have hbegun := h.begun str
  obtain ⟨s, hs, rfl⟩ := Option.map_eq_some_iff.mp hwrite
  cases writeOk with
  | false =>
    cases hs
    refine ⟨hbegun, fun k hk hwaits => h.waits k hk ?_⟩
    rwa [List.getElem?_append_left (h.slot k hk)] at hwaits
  | true =>
    have hstep : TCPSocket.step b r.s (.setFlushCallback (some r.writes.length)) = some s := hs
    have hreach : TCPSocket.Reachable b s := .next h.reach trivial hstep
    have hfresh := h.fresh
    cases hs
    refine ⟨⟨hreach, fun k hk => ?_, hbegun.queued, hbegun.once, hbegun.written⟩,
      fun k hk hwaits => ?_⟩
    · cases hk
      simp
    · cases hk
      rcases hwaits with hmissing | hcalled
      · have hstr : str.isEmpty = false := by
          simpa [Write.missing] using hmissing
        have hdrained : drained r.s = true := by
          simpa [hstr] using behind
        exact hdrained
      · exact absurd hcalled (Nat.not_lt.mpr (Nat.le_of_eq hfresh))

/-! ## Send -/

theorem getSendContext_bytes (str : Bytes) :
    (TCPSocket.getSendContext ⟨str, 0, str.length⟩ str.length).bytes = str := by
  have hlen : (if 0 < str.length then str.length else str.length) = str.length := ite_self _
  simp only [TCPSocket.getSendContext, TCPSocket.SendContext.bytes, hlen]
  refine List.ext_getElem (by simp) fun i hi hi' => ?_
  simp [List.getD_eq_getElem?_getD, List.getElem?_eq_getElem hi']

/-- Where the socket accepts, the bytes of a call come right after what was accepted before. -/
theorem send_accepts {str : Bytes} {s' : TCPSocket.Sys} (accepts : r.accepting = true)
    (hstep : TCPSocket.step b r.s (.send (some ⟨str, 0, str.length⟩) 0) = some s') :
    acceptedBytes s'.world.log = acceptedBytes r.s.world.log ++ str := by
  obtain rfl := Option.some.inj hstep
  have hopen : (r.s.world.sock.closed || r.s.world.sock.shutdown ||
      r.s.world.sock.closedOnFlush) = false := by
    simpa [accepting] using accepts
  by_cases hstr : str.length = 0
  · rw [List.length_eq_zero_iff.mp hstr, List.append_nil]
    rfl
  · let w := TCPSocket.queueSend r.s.world ⟨str, 0, str.length⟩ str.length false
    have hqueued : acceptedBytes w.log = acceptedBytes r.s.world.log ++ str := by
      simp only [w, TCPSocket.queueSend, TCPSocket.World.note, acceptedBytes,
        List.flatMap_append, List.flatMap_singleton, getSendContext_bytes]
    have haside : TCPSocket.Aside w
        (TCPSocket.sendWith r.s.world false 0 (some ⟨str, 0, str.length⟩)).1 := by
      simp only [TCPSocket.sendWith, TCPSocket._send, if_true, if_neg hstr, hopen,
        Bool.false_eq_true, if_false]
      refine TCPSocket.wake_aside ?_ _
      split
      · exact TCPSocket.registerTimerSend_aside (.refl w)
      · exact .refl w
    exact (congrArg TCPSocket.Outgoing.accepted haside.outgoing).trans hqueued

/-- The counts and the bytes behind a `Send`: what is written was accepted before it. -/
theorem Counted.sent {k : ℕ} {str : Bytes} {s : TCPSocket.Sys} {state : WriteState}
    (h : Counted b { r with s }) (hwrite : r.writes[k]? = some ⟨str, .sending⟩)
    (accepted : ∀ before, state = .queued before →
      before ++ str <+: acceptedBytes s.world.log) :
    Counted b { r with s, writes := r.writes.set k ⟨str, state⟩ } := by
  refine ⟨h.reach, fun i hi => ?_, fun c hc before hstate => ?_, h.once, fun i hi => ?_⟩
  · rw [List.length_set]
    exact h.slot i hi
  · rcases List.mem_or_eq_of_mem_set hc with hc | rfl
    · exact h.queued c hc before hstate
    · exact accepted before hstate
  · obtain ⟨c, hc, hwritten⟩ := h.written i hi
    by_cases hik : i = k
    · -- its bytes can have been written only if there are none
      rw [hik, hwrite, Option.some.injEq] at hc
      subst hc
      rw [hik, List.getElem?_set_self (List.getElem?_eq_some_iff.mp hwrite).1]
      refine ⟨_, rfl, .inl (hwritten.resolve_right ?_)⟩
      rintro ⟨before, hstate, -⟩
      cases hstate
    · exact ⟨c, (List.getElem?_set_ne (Ne.symm hik)).trans hc, hwritten⟩

/-- A call whose bytes are queued now has not had its `writeOk` called. -/
theorem Counted.uncalled {k : ℕ} {str : Bytes} (h : Counted b r)
    (hwrite : r.writes[k]? = some ⟨str, .sending⟩) (carries : str ≠ []) : r.called k = 0 := by
  refine Nat.eq_zero_of_not_pos fun hcalled => ?_
  obtain ⟨c, hc, hwritten⟩ := h.written k hcalled
  obtain rfl := Option.some.inj (hwrite.symm.trans hc)
  rcases hwritten with hnone | ⟨before, hstate, -⟩
  · exact carries hnone
  · cases hstate

theorem kept_send {k : ℕ} (h : Kept b r) (own : r.borrows (.send k) = false)
    (hsend : r.send b k = some r') : Kept b r' := by
  unfold send at hsend
  split at hsend
  · rename_i str hwrite
    obtain ⟨s, hs, rfl⟩ := Option.map_eq_some_iff.mp hsend
    have hsocket : Counted b { r with s } := h.counted hs rfl
    refine ⟨hsocket.sent hwrite fun before hstate => ?_, fun i hi hwaits => ?_⟩
    · split at hstate
      · rename_i haccepts
        cases hstate
        exact (send_accepts haccepts hs).symm ▸ List.prefix_rfl
      · cases hstate
    · have hslot := (TCPSocket.step_onward hs rfl).slot.symm.trans hi
      by_cases hik : i = k
      · subst hik
        rw [List.getElem?_set_self (List.getElem?_eq_some_iff.mp hwrite).1, Option.any_some]
          at hwaits
        cases hqueues : queues r.s (.send (some ⟨str, 0, str.length⟩) 0) with
        | false =>
          refine h.drained_after hs (fun _ => hqueues) hslot (hwaits.imp_left fun hmissing => ?_)
          simp only [Write.missing, Bool.and_eq_true] at hmissing
          simp [hwrite, Write.missing, hmissing.1]
        | true =>
          obtain ⟨hoffers, haccepts⟩ := Bool.and_eq_true_iff.mp hqueues
          have hcarries : str ≠ [] := by
            rintro rfl
            cases hoffers
          rcases hwaits with hmissing | hcalled
          · have haccepting : r.accepting = true := haccepts
            simp [Write.missing, haccepting] at hmissing
          · exact absurd (hsocket.uncalled hwrite hcarries) (Nat.ne_of_gt hcalled)
      · rw [List.getElem?_set_ne (Ne.symm hik)] at hwaits
        refine h.drained_after hs (fun hdrained => ?_) hslot hwaits
        simpa [borrows, hdrained, hslot, hwrite, hik] using own
  · cases hsend

theorem kept_step {a : Label} (h : Kept b r) (apart : r.mixes a = false)
    (hstep : r.step b a = some r') : Kept b r' := by
  simp only [mixes, Bool.or_eq_false_iff] at apart
  obtain ⟨⟨hbehind, hown⟩, hshort⟩ := apart
  cases a with
  | responseHeader q writeOk | requestHeader q writeOk =>
    simp only [step, HttpResponse.writeHeader, HttpRequest.writeHeader,
      Option.bind_eq_some_iff] at hstep
    obtain ⟨header, hheader, hwrite⟩ := hstep
    refine kept_write h ?_ hwrite
    simpa only [preempts, Label.call, hheader, Option.map_some, Option.any_some] using hbehind
  | responseBody body writeOk | requestBody body writeOk => exact kept_write h hbehind hstep
  | send k => exact kept_send h hown hstep
  | socket a =>
    simp only [step] at hstep
    split_ifs at hstep with hsets
    obtain ⟨s, hs, rfl⟩ := Option.map_eq_some_iff.mp hstep
    rw [TCPSocket.intStep_eq hshort] at hs
    exact h.socket hs (Bool.not_eq_true _ ▸ hsets) hown

theorem kept_new (b : Build) : Kept b new := by
  have hnone (k : ℕ) : new.called k = 0 := rfl
  refine ⟨⟨.refl, nofun, nofun, fun k => ?_, fun k hk => ?_⟩, nofun⟩
  · rw [hnone k]
    exact Nat.zero_le 1
  · rw [hnone k] at hk
    cases hk

/-! ## What a call can rely on -/

theorem count_le_called (r : Writer) (k : ℕ) :
    r.s.world.log.count (.flushCallback k) ≤ r.called k := by
  have hcount : r.s.world.log.count (.flushCallback k) =
      r.s.world.log.countP (TCPSocket.Obs.flushOf fun cb => cb == k) := by
    refine List.countP_congr fun o _ => ?_
    cases o <;> simp [TCPSocket.Obs.flushOf]
  rw [hcount]
  exact Nat.le_add_right _ _

/-- In every run in which no call puts its `writeOk` into the slot while something is queued, no
bytes come into a drained queue behind the `writeOk` of another call and no batch comes to 2 GiB:
each `writeOk` is called at most once, and only after all bytes of its call have been written by
writev. -/
theorem write_ok_own {b : Build} {r : Writer}
    (run : Machine.Runs (step b) (fun r a => r.mixes a = false) new r) {k : ℕ} {c : Write}
    (hc : r.writes[k]? = some c) :
    r.s.world.log.count (.flushCallback k) ≤ 1 ∧
      (.flushCallback k ∈ r.s.world.log → c.Written r.s.world.log) := by
  have h : Kept b r := run.invariant (kept_new b)
    fun _ _ _ _ hkept apart hstep => kept_step hkept apart hstep
  refine ⟨(count_le_called r k).trans (h.once k), fun hmem => ?_⟩
  have hcalled := Nat.lt_of_lt_of_le (List.count_pos_iff.mpr hmem) (count_le_called r k)
  obtain ⟨c', hc', hwritten⟩ := h.written k hcalled
  cases hc.symm.trans hc'
  exact hwritten

def firstWrite : List Label :=
  [.socket .start, .responseBody [7] true, .send 0, .socket .writable,
    .socket (.collect ⟨false, true, false⟩), .socket .disable, .socket (.onActive 0),
    .socket .post, .socket (.worker 0 .again), .socket (.worker 0 .again),
    .socket (.worker 0 .again), .socket (.worker 0 .again), .socket (.worker 0 (.ok 1)),
    .socket (.worker 0 .again), .socket (.worker 0 .again), .socket (.worker 0 .again)]

def secondWrite : List Label :=
  [.responseBody [8] false, .send 1, .socket .post, .socket (.worker 0 .again),
    .socket (.worker 0 .again), .socket (.worker 0 .again), .socket (.worker 0 .again),
    .socket (.worker 0 (.ok 1)), .socket (.worker 0 .again), .socket (.worker 0 .again)]

/-- The `writeOk` of the first call is called for the bytes of the second as well. -/
theorem write_ok_again : ∃ r : Writer,
    Machine.exec (step ⟨false⟩) new (firstWrite ++ secondWrite) = some r ∧
    r.s.world.log.count (.flushCallback 0) = 2 := by
  have h : (Machine.exec (step ⟨false⟩) new (firstWrite ++ secondWrite)).map
      (fun r => r.s.world.log.count (.flushCallback 0)) = some 2 := by decide
  obtain ⟨r, hr, hview⟩ := Option.map_eq_some_iff.mp h
  exact ⟨r, hr, hview⟩

/-- The one call gets its `writeOk` called. -/
theorem write_ok_own_first : ∃ r : Writer,
    Machine.exec (step ⟨false⟩) new firstWrite = some r ∧
    .flushCallback 0 ∈ r.s.world.log ∧ r.s.world.log.count (.flushCallback 0) ≤ 1 := by
  have h : (Machine.exec (step ⟨false⟩) new firstWrite).map
      (fun r => (r.writes[0]?, decide (.flushCallback 0 ∈ r.s.world.log))) =
        some (some ⟨[7], .queued []⟩, true) := by decide
  obtain ⟨r, hr, hview⟩ := Option.map_eq_some_iff.mp h
  simp only [Prod.mk.injEq, decide_eq_true_eq] at hview
  refine ⟨r, hr, hview.2, (write_ok_own (b := ⟨false⟩) ?_ hview.1).1⟩
  exact .of_tally _ _ hr (by decide)

end Writer

end Hwnet.Http
