import Hwnet.Machine
import Mathlib.Data.List.Basic

set_option autoImplicit false

/-!
# The redis connection

Each command waits in hiredis with its C callback, and the function of a command that has one waits
in `redisFns`. hiredis runs under the mutex of the connection, which the callbacks of the connection
release, and it frees the context of its own accord. The poller thread calls it from `OnActive`, the
thread that closes the connection from `Close`.
-/
namespace Hwnet.RedisCli

/-! ## States -/

abbrev RedisCallback := ℕ

/-- What hiredis keeps of a command. Its C callback is `getCallback` or null. -/
structure Callback where
  command : ℕ
  getCallback : Bool
  privdata : ℕ
  deriving DecidableEq, Repr

structure Call where
  command : ℕ
  fn : Option RedisCallback
  privdata : ℕ
  deriving DecidableEq, Repr

def Call.callback (c : Call) : Callback := ⟨c.command, c.fn.isSome, c.privdata⟩

structure Event where
  read : Bool
  write : Bool
  error : Bool
  deriving DecidableEq, Repr

inductive Half where
  | read
  | write
  deriving DecidableEq, Repr

/-- The two threads that may be inside hiredis across a release of the mutex. -/
inductive Side where
  | poller
  | closer
  deriving DecidableEq, Repr

inductive Place where
  /-- `__redisAsyncHandleConnect` -/
  | handleConnect (half : Half)
  /-- `connectCallback` with `REDIS_ERR`, before the removal from the poller -/
  | connectFailed
  | connectRefused
  /-- `connectCallback` with `REDIS_OK` -/
  | connectCalled (half : Half)
  /-- `redisBufferRead` or `redisBufferWrite` -/
  | buffer (half : Half)
  /-- `redisProcessCallbacks` -/
  | processCallbacks
  /-- `getCallback`, with what `redisFns.front()` refers to, for a reply or for a null one -/
  | calling (cb : Callback) (node : Option ℕ) (reply : Bool)
  | called (reply : Bool)
  /-- `__redisAsyncFree` -/
  | free
  /-- `disconnectCallback`: before `closed` is set, the removal from the poller, the return -/
  | disconnected
  | removing
  | notifying
  deriving DecidableEq, Repr

/-- The poller thread within `OnActive`; `write` tells that `redisAsyncHandleWrite` is still to
be called. -/
inductive OnActive where
  | idle
  | enter (read write : Bool)
  | inside (write : Bool) (place : Place)
  deriving DecidableEq, Repr

structure Sys where
  -- the context: its flags, its queue, and whether it has been freed
  connected : Bool
  disconnecting : Bool
  inCallback : Bool
  freed : Bool
  replies : List Callback
  -- the connection; the nodes of the list have names
  mtx : Option Side
  closed : Bool
  redisFns : List (ℕ × RedisCallback)
  nextNode : ℕ
  -- the poller, with the events it has collected and not yet delivered
  registered : Bool
  collected : List Event
  onActive : OnActive
  closing : Option Place
  -- kept beside the code: the commands accepted, the answers `getCallback` was called for, its
  -- invocations, and whether the context was used after it was freed
  issued : List Call
  answered : List ℕ
  invoked : List Call
  misused : Bool
  deriving DecidableEq, Repr

def start : Sys where
  connected := false
  disconnecting := false
  inCallback := false
  freed := false
  replies := []
  mtx := none
  closed := false
  redisFns := []
  nextNode := 0
  registered := true
  collected := []
  onActive := .idle
  closing := none
  issued := []
  answered := []
  invoked := []
  misused := false

namespace Sys

def use (s : Sys) : Sys := { s with misused := s.misused || s.freed }

/-- `Poller::Remove`, which asks the channel for its descriptor. -/
def remove (s : Sys) : Sys := { s.use with registered := false }

def unlock (s : Sys) : Sys := { s with mtx := none }

def relock (s : Sys) (side : Side) : Option Sys :=
  if s.mtx = none then some { s.use with mtx := some side } else none

def deref (s : Sys) (node : ℕ) : Option RedisCallback :=
  (s.redisFns.find? (·.1 = node)).map (·.2)

/-- `__redisRunCallback` for the callback shifted off the queue, up to the invocation by
`getCallback` of the function in front. -/
def runCallback (s : Sys) (cb : Callback) (rest : List Callback) (reply : Bool) : Sys × Place :=
  if cb.getCallback then
    ({ s.use with
        replies := rest
        inCallback := true
        mtx := none
        answered := s.answered ++ [cb.command] },
      .calling cb (s.redisFns.head?.map (·.1)) reply)
  else ({ s.use with replies := rest }, if reply then .processCallbacks else .free)

def disconnect (s : Sys) : Sys × Option Place := ({ s.use with disconnecting := true }, some .free)

end Sys

/-! ## Steps inside hiredis -/

/-- What the socket or the reader answers. -/
inductive Answer where
  | ok
  | again
  | error
  | noReply (flushed : Bool)
  | reply (error : Bool)
  deriving DecidableEq, Repr

def Place.next (side : Side) (s : Sys) : Place → Answer → Option (Sys × Option Place)
  | .handleConnect half, .ok => some ({ s.use with connected := true, mtx := none },
      some (.connectCalled half))
  | .handleConnect _, .again => some (s.use, none)
  | .handleConnect _, .error => some (s.use.unlock, some .connectFailed)
  | .connectFailed, .ok => some (s.remove, some .connectRefused)
  | .connectRefused, .ok => (s.relock side).map Sys.disconnect
  | .connectCalled half, .ok => (s.relock side).map (·, some (.buffer half))
  | .buffer .read, .ok => some (s.use, some .processCallbacks)
  | .buffer .write, .ok => some (s.use, none)
  | .buffer _, .error => some s.disconnect
  | .processCallbacks, .error => some s.disconnect
  | .processCallbacks, .noReply flushed =>
    if s.disconnecting && flushed && s.replies.isEmpty then some (s.use, some .free)
    else some (s.use, none)
  | .processCallbacks, .reply error =>
    match s.replies with
    -- without an error the assertion fails
    | [] => if error then some s.disconnect else none
    | cb :: rest =>
      let (s, place) := s.runCallback cb rest true
      some (s, some place)
  | .calling cb node reply, .ok =>
    some ({ s with invoked := s.invoked ++ [⟨cb.command, node.bind s.deref, cb.privdata⟩] },
      some (.called reply))
  | .called reply, .ok =>
    (s.relock side).map fun s => ({ s with redisFns := s.redisFns.tail, inCallback := false },
      some (if reply then .processCallbacks else .free))
  | .free, .ok =>
    match s.replies with
    | [] =>
      if s.connected then some (s.remove.unlock, some .disconnected)
      else some ({ s.remove with freed := true }, none)
    | cb :: rest =>
      let (s, place) := s.runCallback cb rest false
      some (s, some place)
  | .disconnected, .ok => some ({ s with closed := true }, some .removing)
  | .removing, .ok => some (s.remove, some .notifying)
  | .notifying, .ok => (s.relock side).map fun s => ({ s with freed := true }, none)
  | _, _ => none

/-! ## What the context and the mutex go through -/

theorem map_relock {s : Sys} {side : Side} {f : Sys → Sys × Option Place} {r : Sys × Option Place}
    (h : (s.relock side).map f = some r) :
    s.mtx = none ∧ f { s.use with mtx := some side } = r := by
  unfold Sys.relock at h
  split at h
  · exact ⟨by assumption, Option.some.inj h⟩
  · cases h

@[simp] def Place.locked : Place → Bool
  | .handleConnect _ | .buffer _ | .processCallbacks | .free => true
  | _ => false

@[simp] def Place.uses : Place → Bool
  | .calling .. | .disconnected => false
  | _ => true

@[simp] def Place.frees (s : Sys) : Place → Bool
  | .free => s.replies.isEmpty && !s.connected
  | .notifying => true
  | _ => false

@[simp] def turn (side : Side) (mtx : Option Side) (held holds : Bool) : Option Side :=
  match held, holds with
  | true, false => none
  | false, true => some side
  | _, _ => mtx

/-- What a step inside hiredis does besides the queues. -/
structure Effects (side : Side) (p : Place) (q : Option Place) (s t : Sys) : Prop where
  misused : t.misused = (s.misused || (p.uses && s.freed))
  freed : t.freed = (s.freed || p.frees s)
  returns : p.frees s = true → q = none
  closed : s.closed = true → t.closed = true
  mtx : t.mtx = turn side s.mtx p.locked (q.elim true Place.locked)
  waits : p.locked = false → q.elim true Place.locked = true → s.mtx = none
  events : t.onActive = s.onActive ∧ t.collected = s.collected ∧ t.closing = s.closing

attribute [local simp] Sys.use Sys.remove Sys.unlock Sys.disconnect

theorem runCallback_effects {side : Side} {s : Sys} {cb : Callback} {rest : List Callback}
    {reply : Bool} {p : Place} (front : s.replies = cb :: rest)
    (hp : p = if reply then .processCallbacks else .free) :
    Effects side p (some (s.runCallback cb rest reply).2) s (s.runCallback cb rest reply).1 := by
  subst hp
  unfold Sys.runCallback
  cases cb.getCallback <;> cases reply <;> constructor <;> simp [front]

theorem next_effects {side : Side} {s t : Sys} {p : Place} {a : Answer} {q : Option Place}
    (h : p.next side s a = some (t, q)) : Effects side p q s t := by
  cases p with
  | handleConnect half =>
    cases a with
    | ok | again | error => cases h; constructor <;> simp
    | noReply flushed | reply error => cases h
  | connectRefused | connectCalled half | notifying =>
    cases a with
    | ok =>
      obtain ⟨free, h⟩ := map_relock h
      cases h
      constructor <;> simp [free]
    | _ => cases h
  | called reply =>
    cases a with
    | ok =>
      obtain ⟨free, h⟩ := map_relock h
      cases h
      cases reply <;> constructor <;> simp [free]
    | _ => cases h
  | connectFailed | calling _ _ _ | disconnected | removing =>
    cases a with
    | ok => cases h; constructor <;> simp
    | _ => cases h
  | buffer half =>
    cases a with
    | ok | error => cases half <;> cases h <;> constructor <;> simp
    | _ => cases half <;> cases h
  | processCallbacks =>
    cases a with
    | error => cases h; constructor <;> simp
    | noReply flushed =>
      simp only [Place.next] at h
      split at h <;> cases h <;> constructor <;> simp
    | reply error =>
      simp only [Place.next] at h
      split at h
      · split at h
        · cases h; constructor <;> simp
        · cases h
      · rename_i front
        cases h
        exact runCallback_effects front rfl
    | _ => cases h
  | free =>
    cases a with
    | ok =>
      simp only [Place.next] at h
      split at h
      · split at h <;> cases h <;> constructor <;> simp [*]
      · rename_i front
        cases h
        exact runCallback_effects front rfl
    | _ => cases h

/-! ## Steps of the threads -/

inductive Label where
  | collect (events : List Event)
  | active
  | poller (answer : Answer)
  | close
  | closer (answer : Answer)
  /-- `formatted` tells whether the format is one of a command. -/
  | redisAsyncCommand (fn : Option RedisCallback) (privdata : ℕ) (formatted : Bool)
  deriving DecidableEq, Repr

namespace Sys

/-- The poller waits for events; those it returns were collected while the channel was there. -/
def collect (s : Sys) (events : List Event) : Option Sys :=
  if s.onActive = .idle ∧ s.collected = [] ∧ s.registered then
    some { s with collected := events }
  else none

def active (s : Sys) : Option Sys :=
  match s.onActive, s.collected with
  | .idle, event :: rest =>
    if s.mtx = none then
      some { s with
        collected := rest
        mtx := some .poller
        onActive := .enter (event.read || event.error) event.write }
    else none
  | _, _ => none

def handle (s : Sys) (half : Half) (write : Bool) : Sys :=
  { s.use with
    onActive := .inside write (if s.connected then .buffer half else .handleConnect half) }

def poller (s : Sys) (answer : Answer) : Option Sys :=
  match s.onActive with
  | .idle => none
  | .enter true write => if answer = .ok then some (s.handle .read write) else none
  | .enter false true => if answer = .ok then some (s.handle .write false) else none
  | .enter false false =>
    if answer = .ok then some { s with mtx := none, onActive := .idle } else none
  | .inside write place => do
    let (s, place) ← place.next .poller s answer
    match place with
    | some place => return { s with onActive := .inside write place }
    | none => return { s with onActive := .enter false write }

/-- `Close` up to its way into `__redisAsyncFree`, if `redisAsyncDisconnect` takes that one. -/
def close (s : Sys) : Option Sys :=
  if s.mtx = none then
    if s.closed then some s
    else
      let s := { s.use with closed := true, disconnecting := true }
      if !s.inCallback && s.replies.isEmpty then
        some { s with mtx := some .closer, closing := some .free }
      else some s
  else none

def closer (s : Sys) (answer : Answer) : Option Sys := do
  let place ← s.closing
  let (s, place) ← place.next .closer s answer
  match place with
  | some place => return { s with closing := some place }
  | none => return { s with mtx := none, closing := none }

def redisvAsyncCommand (s : Sys) (getCallback : Bool) (privdata : ℕ) (formatted : Bool) :
    Sys × Bool :=
  if formatted && !s.disconnecting then
    ({ s.use with replies := s.replies ++ [⟨s.issued.length, getCallback, privdata⟩] }, true)
  else (s.use, false)

def redisAsyncCommand (s : Sys) (fn : Option RedisCallback) (privdata : ℕ) (formatted : Bool) :
    Option Sys :=
  if s.mtx = none then
    if s.closed then some s
    else
      let call : Call := ⟨s.issued.length, fn, privdata⟩
      match fn, s.redisvAsyncCommand fn.isSome privdata formatted with
      | some fn, (s, true) =>
        some { s with
          redisFns := s.redisFns ++ [(s.nextNode, fn)]
          nextNode := s.nextNode + 1
          issued := s.issued ++ [call] }
      | none, (s, true) => some { s with issued := s.issued ++ [call] }
      | _, (s, false) => some s
  else none

end Sys

/-- A call of `redisAsyncCommand` is refused, or the command enters the queue of hiredis and its
function, if it has one, enters `redisFns`. -/
theorem redisAsyncCommand_cases {s t : Sys} {fn : Option RedisCallback} {privdata : ℕ}
    {formatted : Bool} (h : s.redisAsyncCommand fn privdata formatted = some t) :
    s.mtx = none ∧ (s.closed = true ∧ t = s ∨ s.closed = false ∧ (t = s.use ∨
      ∃ nodes next, nodes.map Prod.snd = fn.toList ∧ t = { s.use with
        replies := s.replies ++ [⟨s.issued.length, fn.isSome, privdata⟩]
        redisFns := s.redisFns ++ nodes
        nextNode := next
        issued := s.issued ++ [⟨s.issued.length, fn, privdata⟩] })) := by
  unfold Sys.redisAsyncCommand at h
  split at h
  · rename_i free
    refine ⟨free, ?_⟩
    cases closed : s.closed with
    | true =>
      simp only [closed, if_true, Option.some.injEq] at h
      exact .inl ⟨rfl, h.symm⟩
    | false =>
      refine .inr ⟨rfl, ?_⟩
      cases accepted : formatted && !s.disconnecting with
      | false =>
        simp only [closed, Sys.redisvAsyncCommand, accepted] at h
        cases fn <;> exact .inl (Option.some.inj h).symm
      | true =>
        simp only [closed, Sys.redisvAsyncCommand, accepted] at h
        cases fn with
        | none => exact .inr ⟨[], s.nextNode, rfl, by rw [← Option.some.inj h]; simp [Sys.use]⟩
        | some fn => exact .inr ⟨[(s.nextNode, fn)], _, rfl, (Option.some.inj h).symm⟩
  · cases h

theorem close_cases {s t : Sys} (h : s.close = some t) :
    s.mtx = none ∧ (s.closed = true ∧ t = s ∨ s.closed = false ∧
      (t = { s.use with closed := true, disconnecting := true } ∨
        s.replies = [] ∧ t = { s.use with
          closed := true
          disconnecting := true
          mtx := some .closer
          closing := some .free })) := by
  unfold Sys.close at h
  split at h
  · rename_i free
    refine ⟨free, ?_⟩
    cases closed : s.closed with
    | true =>
      simp only [closed, if_true, Option.some.injEq] at h
      exact .inl ⟨rfl, h.symm⟩
    | false =>
      refine .inr ⟨rfl, ?_⟩
      simp only [closed, Bool.false_eq_true, if_false] at h
      split at h
      · rename_i go
        simp only [Sys.use, Bool.and_eq_true, List.isEmpty_iff] at go
        exact .inr ⟨go.2, (Option.some.inj h).symm⟩
      · exact .inl (Option.some.inj h).symm
  · cases h

theorem collect_cases {s t : Sys} {events : List Event} (h : s.collect events = some t) :
    s.onActive = .idle ∧ t = { s with collected := events } := by
  unfold Sys.collect at h
  split at h
  · rename_i there
    exact ⟨there.1, (Option.some.inj h).symm⟩
  · cases h

theorem active_cases {s t : Sys} (h : s.active = some t) :
    ∃ event rest, s.onActive = .idle ∧ s.collected = event :: rest ∧ s.mtx = none ∧
      t = { s with
        collected := rest
        mtx := some .poller
        onActive := .enter (event.read || event.error) event.write } := by
  unfold Sys.active at h
  split at h
  · rename_i event rest idle more
    split at h
    · rename_i free
      exact ⟨event, rest, idle, more, free, (Option.some.inj h).symm⟩
    · cases h
  · cases h

theorem poller_cases {s t : Sys} {answer : Answer} (h : s.poller answer = some t) :
    (∃ write, s.onActive = .enter true write ∧ t = s.handle .read write) ∨
    (s.onActive = .enter false true ∧ t = s.handle .write false) ∨
    (s.onActive = .enter false false ∧ t = { s with mtx := none, onActive := .idle }) ∨
    ∃ write place u next, s.onActive = .inside write place ∧
      place.next .poller s answer = some (u, next) ∧
      t = { u with onActive := next.elim (.enter false write) (.inside write) } := by
  unfold Sys.poller at h
  split at h
  · cases h
  · rename_i write entered
    split at h
    · exact .inl ⟨write, entered, (Option.some.inj h).symm⟩
    · cases h
  · rename_i entered
    split at h
    · exact .inr (.inl ⟨entered, (Option.some.inj h).symm⟩)
    · cases h
  · rename_i entered
    split at h
    · exact .inr (.inr (.inl ⟨entered, (Option.some.inj h).symm⟩))
    · cases h
  · rename_i write place inside
    obtain ⟨⟨u, next⟩, hnext, h⟩ := Option.bind_eq_some_iff.mp h
    refine .inr (.inr (.inr ⟨write, place, u, next, inside, hnext, ?_⟩))
    cases next <;> exact (Option.some.inj h).symm

theorem closer_cases {s t : Sys} {answer : Answer} (h : s.closer answer = some t) :
    ∃ place u next, s.closing = some place ∧ place.next .closer s answer = some (u, next) ∧
      t = { u with mtx := next.elim none fun _ => u.mtx, closing := next } := by
  obtain ⟨place, hplace, h⟩ := Option.bind_eq_some_iff.mp h
  obtain ⟨⟨u, next⟩, hnext, h⟩ := Option.bind_eq_some_iff.mp h
  refine ⟨place, u, next, hplace, hnext, ?_⟩
  cases next <;> exact (Option.some.inj h).symm

/-- Nothing is said of what follows a use of the freed context. -/
def step (s : Sys) (a : Label) : Option Sys :=
  if s.misused then none
  else match a with
    | .collect events => s.collect events
    | .active => s.active
    | .poller answer => s.poller answer
    | .close => s.close
    | .closer answer => s.closer answer
    | .redisAsyncCommand fn privdata formatted => s.redisAsyncCommand fn privdata formatted

end Hwnet.RedisCli
