import Hwnet.Poller
import Hwnet.TCPListener

set_option autoImplicit false

/-!
# Start and Stop of a listener

`_start` returns false on every path, also on the one where it has registered the descriptor. So
`Start` takes `started` back, and `Stop` finds nothing to stop.
-/
namespace Hwnet.TCPListener

open Poller (Channel Fd Registry)

/-- A listener with its poller and the descriptors that were closed. -/
structure Setup where
  listener : TCPListener
  reg : Registry
  closed : List Fd

/-- `socket`, `bind` and `listen` are what the calls of these names return, `ok` is whether epoll
takes a number that it does not have. -/
inductive Api where
  | start (onNewConn onError : Option Callback) (valid : Bool) (socket bind listen : ℤ) (ok : Bool)
  | stop
  deriving DecidableEq, Repr

namespace Setup

def close (s : Setup) (fd : Fd) : Setup :=
  { s with reg := s.reg.close fd, closed := s.closed ++ [fd] }

def _start (s : Setup) (c : Channel) (onNewConn onError : Option Callback)
    (socket bind listen : ℤ) (ok : Bool) : Setup × Bool :=
  let s := { s with listener.fd := socket }
  if socket < 0 then (s, false)
  else if bind ≠ 0 then ({ s.close socket with listener.fd := -1 }, false)
  else if listen ≠ 0 then ({ s.close socket with listener.fd := -1 }, false)
  else
    let s := { s with listener.onNewConn := onNewConn, listener.onError := onError }
    ({ s with reg := (s.reg.add c s.listener.fd ok).1 }, false)

def start (s : Setup) (c : Channel) (onNewConn onError : Option Callback) (valid : Bool)
    (socket bind listen : ℤ) (ok : Bool) : Setup × Bool :=
  if onNewConn.isNone then (s, false)
  else if !valid then (s, false)
  else if s.listener.started then (s, false)
  else
    let s := { s with listener.started := true }
    let (s, done) := s._start c onNewConn onError socket bind listen ok
    if done then (s, true) else ({ s with listener.started := false }, false)

def stop (s : Setup) (c : Channel) : Setup :=
  if !s.listener.started then s
  else if s.listener.stop then s
  else
    let s := { s with listener.stop := true }
    let s := { s with reg := (s.reg.remove c s.listener.fd).1 }
    s.close s.listener.fd

def call (s : Setup) (c : Channel) : Api → Setup × Bool
  | .start onNewConn onError valid socket bind listen ok =>
    s.start c onNewConn onError valid socket bind listen ok
  | .stop => (s.stop c, false)

def run (s : Setup) (c : Channel) (calls : List Api) : Setup :=
  calls.foldl (fun s a => (s.call c a).1) s

def Registered (s : Setup) (c : Channel) (fd : Fd) : Prop := s.reg.channels fd = some c

structure Idle (s : Setup) (c : Channel) : Prop where
  started : s.listener.started = false
  unregistered : ∀ fd, ¬ s.Registered c fd

/-! ## What a call should do -/

/-- What `Start` and `Stop` are for: a call `a` from `s`. -/
def Lawful (s : Setup) (c : Channel) (a : Api) : Prop :=
  let (t, result) := s.call c a
  (t.listener.started = true ↔ ∃ fd, t.Registered c fd) ∧
  match a with
  | .start .. =>
    (result = true ↔ (∀ fd, ¬ s.Registered c fd) ∧ ∃ fd, t.Registered c fd) ∧
    ∀ fd, s.Registered c fd → t = s
  | .stop =>
    (∀ fd, s.Registered c fd → ¬ t.Registered c fd ∧ t.closed = s.closed ++ [fd]) ∧
    ((∀ fd, ¬ s.Registered c fd) → t.closed = s.closed)

def Accepts (s : Setup) (fd : Fd) (ok : Bool) : Prop :=
  ok = true ∧ s.reg.channels fd = none ∧ s.reg.interest fd = none

def Opens (s : Setup) : Api → Prop
  | .start onNewConn _ valid socket bind listen ok =>
    (onNewConn ≠ none ∧ valid = true ∧ s.listener.started = false) ∧
      (0 ≤ socket ∧ bind = 0 ∧ listen = 0) ∧ s.Accepts socket ok
  | .stop => False

/-! ## What a call does -/

variable {s : Setup} {c : Channel}

theorem add_cases (fd : Fd) (ok : Bool) :
    s.Accepts fd ok ∧ (s.reg.add c fd ok).1.channels fd = some c ∨
    ¬ s.Accepts fd ok ∧ (s.reg.add c fd ok).1 = s.reg := by
  unfold Registry.add
  by_cases hthere : (s.reg.channels fd).isSome
  · rw [if_pos hthere]
    exact .inr ⟨fun h => by simp [h.2.1] at hthere, rfl⟩
  · have hfree : s.reg.channels fd = none := by simpa using hthere
    rw [if_neg hthere]
    by_cases hok : (ok && (s.reg.interest fd).isNone) = true
    · obtain ⟨hyes, hnone⟩ := Bool.and_eq_true_iff.mp hok
      refine .inl ⟨⟨hyes, hfree, Option.isNone_iff_eq_none.mp hnone⟩, ?_⟩
      simp [Registry.ctlAdd, hok, Registry.insert]
    · refine .inr ⟨fun h => hok ?_, ?_⟩
      · simp [h.1, h.2.2]
      · simp [Registry.ctlAdd, hok]

theorem _start_cases (onNewConn onError : Option Callback) (socket bind listen : ℤ) (ok : Bool) :
    ∃ t, s._start c onNewConn onError socket bind listen ok = (t, false) ∧
      ((0 ≤ socket ∧ bind = 0 ∧ listen = 0) ∧ s.Accepts socket ok ∧ t.Registered c socket ∨
        ¬ ((0 ≤ socket ∧ bind = 0 ∧ listen = 0) ∧ s.Accepts socket ok) ∧
          t.reg.channels = s.reg.channels) := by
  unfold _start
  by_cases hsocket : socket < 0
  · simp only [if_pos hsocket]
    exact ⟨_, rfl, .inr ⟨fun h => absurd h.1.1 (by omega), rfl⟩⟩
  by_cases hbind : bind ≠ 0
  · simp only [if_neg hsocket, if_pos hbind]
    exact ⟨_, rfl, .inr ⟨fun h => hbind h.1.2.1, rfl⟩⟩
  by_cases hlisten : listen ≠ 0
  · simp only [if_neg hsocket, if_neg hbind, if_pos hlisten]
    exact ⟨_, rfl, .inr ⟨fun h => hlisten h.1.2.2, rfl⟩⟩
  simp only [if_neg hsocket, if_neg hbind, if_neg hlisten]
  refine ⟨_, rfl, ?_⟩
  rcases add_cases (s := s) socket ok with ⟨haccepts, hin⟩ | ⟨hrefused, hsame⟩
  · have hcalls : 0 ≤ socket ∧ bind = 0 ∧ listen = 0 := by omega
    exact .inl ⟨hcalls, haccepts, hin⟩
  · exact .inr ⟨fun h => hrefused h.2, congrArg Registry.channels hsame⟩

/-- Where a Start leaves the listener: not started, whether it has opened or not. -/
theorem start_cases (onNewConn onError : Option Callback) (valid : Bool) (socket bind listen : ℤ)
    (ok : Bool) (idle : s.listener.started = false) :
    ∃ t, s.start c onNewConn onError valid socket bind listen ok = (t, false) ∧
      t.listener.started = false ∧
      (s.Opens (.start onNewConn onError valid socket bind listen ok) ∧
          t.Registered c socket ∨
        ¬ s.Opens (.start onNewConn onError valid socket bind listen ok) ∧
          t.reg.channels = s.reg.channels) := by
  unfold start
  by_cases hcb : onNewConn.isNone
  · rw [if_pos hcb]
    exact ⟨s, rfl, idle, .inr ⟨fun h => h.1.1 (Option.isNone_iff_eq_none.mp hcb), rfl⟩⟩
  by_cases hvalid : (!valid) = true
  · rw [if_neg hcb, if_pos hvalid]
    exact ⟨s, rfl, idle, .inr ⟨fun h => by simp [h.1.2.1] at hvalid, rfl⟩⟩
  rw [if_neg hcb, if_neg hvalid, if_neg (by simp [idle])]
  obtain ⟨t, ht, hcases⟩ := _start_cases (s := { s with listener.started := true }) (c := c)
    onNewConn onError socket bind listen ok
  refine ⟨{ t with listener.started := false }, by simp [ht], rfl, ?_⟩
  rcases hcases with ⟨hcalls, haccepts, hin⟩ | ⟨hfails, hsame⟩
  · have hgiven : onNewConn ≠ none ∧ valid = true ∧ s.listener.started = false :=
      ⟨fun h => hcb (Option.isNone_iff_eq_none.mpr h), by simpa using hvalid, idle⟩
    exact .inl ⟨⟨hgiven, hcalls, haccepts⟩, hin⟩
  · exact .inr ⟨fun h => hfails h.2, hsame⟩

theorem stop_idle (idle : s.listener.started = false) : s.stop c = s := by
  simp [stop, idle]

theorem opens_idle {a : Api} (opens : s.Opens a) : s.listener.started = false := by
  cases a with
  | start => exact opens.1.2.2
  | stop => exact opens.elim

/-- A call that opens nothing is lawful and leaves the listener idle. -/
theorem Idle.call (h : s.Idle c) {a : Api} (closed : ¬ s.Opens a) :
    s.Lawful c a ∧ (s.call c a).1.Idle c := by
  cases a with
  | start onNewConn onError valid socket bind listen ok =>
    obtain ⟨t, ht, hstarted, hcases⟩ := start_cases onNewConn onError valid socket
      bind listen ok h.started
    obtain ⟨-, hsame⟩ := hcases.resolve_left fun hopens => closed hopens.1
    have hnone (fd : Fd) : ¬ t.Registered c fd := by
      rw [Registered, hsame]
      exact h.unregistered fd
    have hcall : s.call c (.start onNewConn onError valid socket bind listen ok) =
        (t, false) := ht
    refine ⟨?_, hcall ▸ ⟨hstarted, hnone⟩⟩
    simp only [Lawful, hcall, hstarted]
    exact ⟨⟨nofun, fun ⟨fd, hfd⟩ => absurd hfd (hnone fd)⟩,
      ⟨nofun, fun ⟨_, fd, hfd⟩ => absurd hfd (hnone fd)⟩,
      fun fd hfd => absurd hfd (h.unregistered fd)⟩
  | stop =>
    have hcall : s.call c .stop = (s, false) := congrArg (·, false) (stop_idle h.started)
    refine ⟨?_, hcall ▸ h⟩
    simp only [Lawful, hcall, h.started]
    exact ⟨⟨nofun, fun ⟨fd, hfd⟩ => absurd hfd (h.unregistered fd)⟩,
      fun fd hfd => absurd hfd (h.unregistered fd), fun _ => trivial⟩

/-- A call that opens is not lawful: the descriptor is registered and `started` is false. -/
theorem not_lawful {a : Api} (opens : s.Opens a) : ¬ s.Lawful c a := by
  cases a with
  | start onNewConn onError valid socket bind listen ok =>
    obtain ⟨t, ht, hstarted, hcases⟩ := start_cases onNewConn onError valid socket
      bind listen ok (opens_idle opens)
    have hin : t.Registered c socket := by
      rcases hcases with ⟨-, hin⟩ | ⟨hno, -⟩
      · exact hin
      · exact absurd opens hno
    have hcall : s.call c (.start onNewConn onError valid socket bind listen ok) =
        (t, false) := ht
    simp only [Lawful, hcall, hstarted]
    exact fun h => absurd (h.1.mpr ⟨socket, hin⟩) Bool.false_ne_true
  | stop => exact opens.elim

theorem Idle.run (h : s.Idle c) {calls : List Api} (closed : ∀ before a after,
    calls = before ++ a :: after → ¬ (s.run c before).Opens a) : (s.run c calls).Idle c := by
  induction calls generalizing s with
  | nil => exact h
  | cons a calls ih =>
    refine ih (h.call (closed [] a calls rfl)).2 fun before b after hsplit => ?_
    exact closed (a :: before) b after (by rw [hsplit, List.cons_append])

/-- In a sequence of calls on a fresh listener every call is lawful if and only if none of them is
a Start that opens the listener. -/
theorem start_stop_iff {calls : List Api} (h : s.Idle c) :
    (∀ before a after, calls = before ++ a :: after → (s.run c before).Lawful c a) ↔
    ∀ before a after, calls = before ++ a :: after → ¬ (s.run c before).Opens a := by
  constructor
  · exact fun lawful before a after hsplit hopens =>
      not_lawful hopens (lawful before a after hsplit)
  · intro closed before a after hsplit
    refine ((h.run fun before' b after' hbefore => ?_).call (closed before a after hsplit)).1
    exact closed before' b (after' ++ a :: after) (by rw [hsplit, hbefore]; simp)

end Setup

def fresh : Setup := ⟨new, (Registry.empty.add Poller.notifyChannel 3 true).1, []⟩

theorem fresh_idle : fresh.Idle 1 := by
  refine ⟨rfl, fun fd hfd => ?_⟩
  have hchannels : fresh.reg.channels = Function.update (fun _ => none) 3 (some 0) := rfl
  rw [Setup.Registered, hchannels, Function.update_apply] at hfd
  split at hfd <;> cases hfd

def opening : Api := .start (some 7) none true 5 0 0 true

/-- `Start` registers descriptor 5 and returns false, and `Stop` leaves it. -/
theorem start_returns_false : (fresh.call 1 opening).2 = false ∧
    (fresh.run 1 [opening]).Registered 1 5 ∧
    (fresh.run 1 [opening]).listener.started = false ∧
    (fresh.run 1 [opening, .stop]).Registered 1 5 ∧ (fresh.run 1 [opening, .stop]).closed = [] ∧
    ¬ fresh.Lawful 1 opening := by
  have hopens : fresh.Opens opening := by
    refine ⟨⟨nofun, rfl, rfl⟩, ⟨by decide, rfl, rfl⟩, rfl, rfl, rfl⟩
  exact ⟨rfl, rfl, rfl, rfl, rfl, Setup.not_lawful hopens⟩

theorem start_stop_failing :
    (fresh.run 1 [.start (some 7) none true 5 (-1) 0 true]).Lawful 1 .stop := by
  have lawful : ∀ before a after,
      [Api.start (some 7) none true 5 (-1) 0 true, .stop] = before ++ a :: after →
        (fresh.run 1 before).Lawful 1 a := by
    refine (Setup.start_stop_iff fresh_idle).mpr fun before a after hsplit hopens => ?_
    have hmem : a ∈ [Api.start (some 7) none true 5 (-1) 0 true, .stop] := by
      rw [hsplit]
      exact List.mem_append_right _ List.mem_cons_self
    rcases List.mem_cons.mp hmem with rfl | hmem
    · exact absurd hopens.2.1.2.1 (by decide)
    · rcases List.mem_singleton.mp hmem with rfl
      exact hopens
  exact lawful [.start (some 7) none true 5 (-1) 0 true] .stop [] rfl

end Hwnet.TCPListener
