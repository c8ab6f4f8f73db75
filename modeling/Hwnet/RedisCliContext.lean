import Hwnet.RedisCli

set_option autoImplicit false

/-!
# The freed context

hiredis frees the context within a call or on the way out of a callback, and the connection keeps
the pointer. A step goes astray where it frees the context under what will still use it, or where a
thread that finds it freed calls hiredis all the same.
-/
namespace Hwnet.RedisCli

open Machine

/-! ## Steps that go astray -/

def Event.any (e : Event) : Bool := e.read || e.error || e.write

def strays (s : Sys) : Label → Bool
  | .collect _ => false
  -- an event that was collected before the removal is delivered after the context was freed
  | .active => s.freed && s.collected.head?.any Event.any
  -- the connect failed, which leaves `closed` unset
  | .close | .redisAsyncCommand .. => s.freed && !s.closed
  -- the context is freed while `redisAsyncHandleWrite` is still to be called, or under `Close`
  | .poller _ =>
    match s.onActive with
    | .inside write place => place.frees s && (write || s.closing.isSome)
    | _ => false
  -- the context is freed by `Close` under `OnActive`
  | .closer _ => s.closing.any (·.frees s) && decide (s.onActive ≠ .idle)

/-! ## Runs without such a step -/

/-- No thread is left with the context once it is freed. -/
structure Live (s : Sys) : Prop where
  unused : s.misused = false
  gone : s.freed = true → s.closing = none ∧
    (s.onActive = .idle ∨ s.onActive = .enter false false)

theorem Live.whole {s : Sys} (I : Live s) (there : s.closing ≠ none) : s.freed = false := by
  cases freed : s.freed with
  | false => rfl
  | true => exact absurd (I.gone freed).1 there

theorem Live.inside {s : Sys} {write : Bool} {place : Place} (I : Live s)
    (there : s.onActive = .inside write place) : s.freed = false := by
  cases freed : s.freed with
  | false => rfl
  | true => rcases (I.gone freed).2 with idle | out <;> simp [there] at *

theorem Live.keep {s t : Sys} (I : Live s) (misused : t.misused = s.misused)
    (freed : t.freed = s.freed) (closing : t.closing = s.closing) (same : t.onActive = s.onActive) :
    Live t where
  unused := misused.trans I.unused
  gone h := by rw [closing, same]; exact I.gone (freed.symm.trans h)

theorem use_misused {s : Sys} (h : s.freed = false) : s.use.misused = s.misused := by
  simp [Sys.use, h]

theorem Live.entered {s : Sys} {read write : Bool} (I : Live s)
    (there : s.onActive = .enter read write) (flags : read = true ∨ write = true) :
    s.freed = false := by
  cases freed : s.freed with
  | false => rfl
  | true => rcases (I.gone freed).2 with idle | out <;> simp_all

theorem Live.handle {s : Sys} (I : Live s) (whole : s.freed = false) (half : Half) (write : Bool) :
    Live (s.handle half write) where
  unused := (use_misused whole).trans I.unused
  gone freed := by simp [Sys.handle, Sys.use, whole] at freed

theorem active_live {s t : Sys} (I : Live s) (safe : strays s .active = false)
    (h : s.active = some t) : Live t := by
  obtain ⟨event, rest, idle, more, -, rfl⟩ := active_cases h
  refine ⟨I.unused, fun freed => ⟨(I.gone freed).1, .inr ?_⟩⟩
  simp only [strays, more, List.head?_cons, Option.any_some, Event.any, Bool.and_eq_false_iff,
    show s.freed = true from freed, Bool.true_eq_false, false_or, Bool.or_eq_false_iff] at safe
  simp [safe]

theorem poller_live {s t : Sys} {answer : Answer} (I : Live s)
    (safe : strays s (.poller answer) = false) (h : s.poller answer = some t) : Live t := by
  rcases poller_cases h with ⟨write, entered, rfl⟩ | ⟨entered, rfl⟩ | ⟨entered, rfl⟩ |
    ⟨write, place, u, next, inside, hnext, rfl⟩
  · exact I.handle (I.entered entered (.inl rfl)) .read write
  · exact I.handle (I.entered entered (.inr rfl)) .write false
  · exact ⟨I.unused, fun freed => ⟨(I.gone freed).1, .inl rfl⟩⟩
  · have whole := I.inside inside
    have effects := next_effects hnext
    simp only [strays, inside, Bool.and_eq_false_iff, Bool.or_eq_false_iff] at safe
    refine ⟨?_, fun freed => ?_⟩
    · rw [show u.misused = _ from effects.misused, I.unused, whole]
      simp
    · have frees : place.frees s = true := by
        simpa [effects.freed, whole] using freed
      rcases safe with stays | ⟨rfl, alone⟩
      · cases frees.symm.trans stays
      · rw [effects.returns frees]
        exact ⟨effects.events.2.2.trans (by simpa using alone), .inr rfl⟩

theorem closer_live {s t : Sys} {answer : Answer} (I : Live s)
    (safe : strays s (.closer answer) = false) (h : s.closer answer = some t) : Live t := by
  obtain ⟨place, u, next, hplace, hnext, rfl⟩ := closer_cases h
  have whole := I.whole (by simp [hplace])
  have effects := next_effects hnext
  simp only [strays, hplace, Option.any_some, Bool.and_eq_false_iff, decide_eq_false_iff_not,
    not_not] at safe
  refine ⟨?_, fun freed => ?_⟩
  · rw [show u.misused = _ from effects.misused, I.unused, whole]
    simp
  · have frees : place.frees s = true := by
      simpa [effects.freed, whole] using freed
    rcases safe with stays | idle
    · cases frees.symm.trans stays
    · exact ⟨effects.returns frees, .inl (effects.events.1.trans idle)⟩

theorem step_live {s t : Sys} {a : Label} (I : Live s) (safe : strays s a = false)
    (h : step s a = some t) : Live t := by
  unfold step at h
  split at h
  · cases h
  cases a with
  | collect events =>
    obtain ⟨-, rfl⟩ := collect_cases h
    exact I.keep rfl rfl rfl rfl
  | active => exact active_live I safe h
  | poller answer => exact poller_live I safe h
  | close =>
    obtain ⟨-, ⟨-, rfl⟩ | ⟨opened, made⟩⟩ := close_cases h
    · exact I
    · have whole : s.freed = false := by simpa [strays, opened] using safe
      rcases made with rfl | ⟨-, rfl⟩ <;>
        exact ⟨(use_misused whole).trans I.unused, fun freed => by simp [Sys.use, whole] at freed⟩
  | closer answer => exact closer_live I safe h
  | redisAsyncCommand fn privdata formatted =>
    obtain ⟨-, ⟨-, rfl⟩ | ⟨opened, made⟩⟩ := redisAsyncCommand_cases h
    · exact I
    · have whole : s.freed = false := by simpa [strays, opened] using safe
      rcases made with rfl | ⟨nodes, next, -, rfl⟩ <;>
        exact I.keep (use_misused whole) rfl rfl rfl

/-- In a run without such a step the context is never used after it was freed. -/
theorem context_live {s : Sys} (h : Runs step (fun u a => strays u a = false) start s) :
    s.misused = false :=
  (h.invariant (I := Live) ⟨rfl, fun freed => by cases freed⟩
    fun _ _ _ _ I safe hstep => step_live I safe hstep).unused

def closedRun : List Label :=
  [.collect [⟨false, true, false⟩], .active, .poller .ok, .poller .ok,
    .redisAsyncCommand (some 7) 70 true, .poller .ok, .poller .ok, .poller .ok,
    .collect [⟨true, false, false⟩], .active, .poller .ok, .poller .ok, .poller (.reply false),
    .poller .ok, .close, .poller .ok, .poller (.noReply true), .poller .ok, .poller .ok,
    .poller .ok, .poller .ok, .poller .ok]

theorem context_live_closed : ∃ s, exec step start closedRun = some s ∧ s.freed = true ∧
    s.misused = false :=
  ⟨_, rfl, rfl, context_live (.avoiding closedRun rfl)⟩

def refusedRun : List Label :=
  [.collect [⟨true, true, true⟩], .active, .poller .ok, .poller .error, .poller .ok, .poller .ok,
    .poller .ok, .poller .ok]

/-- `redisAsyncHandleRead` frees the context and `redisAsyncHandleWrite` is called with it. -/
theorem refused_misuses : ¬ ∀ s, Reaches step start s → s.misused = false := by
  intro always
  have used : ∃ s, exec step start refusedRun = some s ∧ s.misused = true := ⟨_, rfl, rfl⟩
  obtain ⟨s, run, misused⟩ := used
  exact Bool.false_ne_true ((always s (.of_exec refusedRun run)).symm.trans misused)

/-! ## Where such a step leads -/

def OnActive.locked : OnActive → Bool
  | .idle => false
  | .enter .. => true
  | .inside _ place => place.locked

structure Held (s : Sys) : Prop where
  poller : s.mtx = some .poller ↔ s.onActive.locked = true
  closer : s.mtx = some .closer ↔ s.closing.any Place.locked = true

theorem turn_own {side : Side} {mtx : Option Side} {held holds : Bool}
    (own : mtx = some side ↔ held = true) :
    turn side mtx held holds = some side ↔ holds = true := by
  cases held <;> cases holds <;> simp [own]

theorem turn_other {side other : Side} {mtx : Option Side} {held holds : Bool} (ne : side ≠ other)
    (own : mtx = some side ↔ held = true) (waits : held = false → holds = true → mtx = none) :
    turn side mtx held holds = some other ↔ mtx = some other := by
  cases held <;> cases holds <;> simp_all

theorem poller_held {s t : Sys} {answer : Answer} (I : Held s) (h : s.poller answer = some t) :
    Held t := by
  rcases poller_cases h with ⟨write, entered, rfl⟩ | ⟨entered, rfl⟩ | ⟨entered, rfl⟩ |
    ⟨write, place, u, next, inside, hnext, rfl⟩
  · have own : s.mtx = some .poller := I.poller.mpr (by rw [entered]; rfl)
    refine ⟨iff_of_true own ?_, I.closer⟩
    unfold Sys.handle
    cases s.connected <;> rfl
  · have own : s.mtx = some .poller := I.poller.mpr (by rw [entered]; rfl)
    refine ⟨iff_of_true own ?_, I.closer⟩
    unfold Sys.handle
    cases s.connected <;> rfl
  · have own : s.mtx = some .poller := I.poller.mpr (by rw [entered]; rfl)
    have other : ¬ s.mtx = some .closer := by simp [own]
    exact ⟨by simp [OnActive.locked], iff_of_false (by simp) (mt I.closer.mpr other)⟩
  · have effects := next_effects hnext
    have own : s.mtx = some .poller ↔ place.locked = true := by
      rw [I.poller, inside]
      rfl
    have mine : u.mtx = some .poller ↔ next.elim true Place.locked = true := by
      rw [effects.mtx]
      exact turn_own own
    have other : u.mtx = some .closer ↔ s.mtx = some .closer := by
      rw [effects.mtx]
      exact turn_other (by decide) own effects.waits
    refine ⟨?_, ?_⟩
    · cases next <;> exact mine
    · rw [show u.closing = s.closing from effects.events.2.2]
      exact other.trans I.closer

theorem closer_held {s t : Sys} {answer : Answer} (I : Held s) (h : s.closer answer = some t) :
    Held t := by
  obtain ⟨place, u, next, hplace, hnext, rfl⟩ := closer_cases h
  have effects := next_effects hnext
  have own : s.mtx = some .closer ↔ place.locked = true := by
    rw [I.closer, hplace]
    rfl
  have mine : u.mtx = some .closer ↔ next.elim true Place.locked = true := by
    rw [effects.mtx]
    exact turn_own own
  have other : u.mtx = some .poller ↔ s.mtx = some .poller := by
    rw [effects.mtx]
    exact turn_other (by decide) own effects.waits
  have stays : u.onActive = s.onActive := effects.events.1
  cases next with
  | none =>
    have held : u.mtx = some .closer := mine.mpr rfl
    refine ⟨iff_of_false (by simp) ?_, by simp⟩
    rw [stays]
    exact mt (I.poller.mpr) (mt other.mpr (by simp [held]))
  | some next => exact ⟨by rw [stays]; exact other.trans I.poller, mine⟩

theorem step_held {s t : Sys} {a : Label} (I : Held s) (h : step s a = some t) : Held t := by
  unfold step at h
  split at h
  · cases h
  cases a with
  | collect events =>
    obtain ⟨-, rfl⟩ := collect_cases h
    exact ⟨I.poller, I.closer⟩
  | active =>
    obtain ⟨event, rest, idle, -, free, rfl⟩ := active_cases h
    exact ⟨by simp [OnActive.locked], by simpa [free] using I.closer⟩
  | poller answer => exact poller_held I h
  | close =>
    obtain ⟨free, ⟨-, rfl⟩ | ⟨-, rfl | ⟨-, rfl⟩⟩⟩ := close_cases h
    · exact I
    · exact ⟨I.poller, I.closer⟩
    · exact ⟨by simpa [free, Sys.use] using I.poller, by simp⟩
  | closer answer => exact closer_held I h
  | redisAsyncCommand fn privdata formatted =>
    obtain ⟨-, ⟨-, rfl⟩ | ⟨-, rfl | ⟨nodes, next, -, rfl⟩⟩⟩ := redisAsyncCommand_cases h
    · exact I
    · exact ⟨I.poller, I.closer⟩
    · exact ⟨I.poller, I.closer⟩

theorem reaches_held {s : Sys} (h : Reaches step start s) : Held s :=
  h.invariant (I := Held) ⟨by simp [start, OnActive.locked], by simp [start]⟩
    fun _ _ _ _ I _ hstep => step_held I hstep

def Sys.place (s : Sys) : Side → Option Place
  | .poller =>
    match s.onActive with
    | .inside _ place => some place
    | _ => none
  | .closer => s.closing

def Label.inside : Side → Answer → Label
  | .poller => .poller
  | .closer => .closer

/-- A thread inside hiredis waits for nothing but the mutex. -/
theorem next_enabled (side : Side) (s : Sys) (p : Place) (free : p.locked = true ∨ s.mtx = none) :
    ∃ a u q, p.next side s a = some (u, q) := by
  cases p with
  | handleConnect half => exact ⟨.again, _, _, rfl⟩
  | connectFailed | calling _ _ _ | disconnected | removing => exact ⟨.ok, _, _, rfl⟩
  | connectRefused | connectCalled half | called reply | notifying =>
    have unlocked : s.mtx = none := by simpa using free
    exact ⟨.ok, _, _, by simp only [Place.next, Sys.relock, unlocked, if_true]; rfl⟩
  | buffer half => exact ⟨.error, _, _, by cases half <;> rfl⟩
  | processCallbacks => exact ⟨.error, _, _, rfl⟩
  | free =>
    refine ⟨.ok, ?_⟩
    simp only [Place.next]
    split
    · split <;> exact ⟨_, _, rfl⟩
    · exact ⟨_, _, rfl⟩

theorem inside_step {side : Side} {s u : Sys} {p : Place} {a : Answer} {q : Option Place}
    (live : s.misused = false) (there : s.place side = some p)
    (h : p.next side s a = some (u, q)) :
    ∃ t, step s (.inside side a) = some t ∧ t.misused = u.misused ∧ t.freed = u.freed ∧
      ∀ r, q = some r → t.place side = some r ∧ t.mtx = u.mtx := by
  cases side with
  | poller =>
    unfold Sys.place at there
    simp only at there
    split at there
    · rename_i write place inside
      obtain rfl := Option.some.inj there
      cases q <;> simp [step, live, Label.inside, Sys.poller, inside, h, Sys.place]
    · cases there
  | closer =>
    have closing : s.closing = some p := there
    cases q <;> simp [step, live, Label.inside, Sys.closer, closing, h, Sys.place]

theorem uses_misuses (side : Side) {s : Sys} {p : Place} (live : s.misused = false)
    (freed : s.freed = true) (there : s.place side = some p)
    (free : p.locked = true ∨ s.mtx = none) (uses : p.uses = true) :
    ∃ u, Reaches step s u ∧ u.misused = true := by
  obtain ⟨a, u, q, hnext⟩ := next_enabled side s p free
  obtain ⟨t, hstep, misused, -, -⟩ := inside_step live there hnext
  refine ⟨t, .next .refl trivial hstep, ?_⟩
  rw [misused, (next_effects hnext).misused, uses, freed]
  simp

/-- A thread that is inside hiredis when the context is freed comes to use it. -/
theorem inside_misuses (side : Side) {s : Sys} {p : Place} (live : s.misused = false)
    (freed : s.freed = true) (there : s.place side = some p)
    (free : p.locked = true ∨ s.mtx = none) :
    ∃ u, Reaches step s u ∧ u.misused = true := by
  cases uses : p.uses with
  | true => exact uses_misuses side live freed there free uses
  | false =>
    have onward : ∃ u r, p.next side s .ok = some (u, some r) ∧ r.uses = true ∧
        u.misused = s.misused ∧ u.freed = s.freed ∧ u.mtx = none := by
      cases p with
      | calling cb node reply => exact ⟨_, _, rfl, rfl, rfl, rfl, by simpa using free⟩
      | disconnected => exact ⟨_, _, rfl, rfl, rfl, rfl, by simpa using free⟩
      | _ => cases uses
    obtain ⟨u, r, hnext, hr, same, whole, unlocked⟩ := onward
    obtain ⟨t, hstep, misused, gone, next⟩ := inside_step live there hnext
    obtain ⟨inside, mtx⟩ := next r rfl
    obtain ⟨v, run, hv⟩ := uses_misuses side (misused.trans (same.trans live))
      (gone.trans (whole.trans freed)) inside (.inr (mtx.trans unlocked)) hr
    exact ⟨v, (Runs.next .refl trivial hstep).trans run, hv⟩

/-- `OnActive` uses the freed context where it still has something to handle. -/
theorem entered_misuses {s : Sys} {read write : Bool} (live : s.misused = false)
    (freed : s.freed = true) (there : s.onActive = .enter read write)
    (flags : read = true ∨ write = true) : ∃ u, Reaches step s u ∧ u.misused = true := by
  have used : ∀ half rest, (s.handle half rest).misused = true := fun half rest => by
    simp [Sys.handle, Sys.use, freed]
  cases read with
  | true =>
    have hstep : step s (.poller .ok) = some (s.handle .read write) := by
      simp [step, live, Sys.poller, there]
    exact ⟨_, .next .refl trivial hstep, used _ _⟩
  | false =>
    obtain rfl : write = true := by simpa using flags
    have hstep : step s (.poller .ok) = some (s.handle .write false) := by
      simp [step, live, Sys.poller, there]
    exact ⟨_, .next .refl trivial hstep, used _ _⟩

theorem already_misuses {s : Sys} (misused : s.misused = true) :
    ∃ u, Reaches step s u ∧ u.misused = true := ⟨s, .refl, misused⟩

theorem poller_strays {s t : Sys} {answer : Answer}
    (astray : strays s (.poller answer) = true) (h : s.poller answer = some t) :
    ∃ u, Reaches step t u ∧ u.misused = true := by
  cases live : t.misused with
  | true => exact already_misuses live
  | false =>
    rcases poller_cases h with ⟨write, entered, -⟩ | ⟨entered, -⟩ | ⟨entered, -⟩ |
      ⟨write, place, u, next, inside, hnext, rfl⟩
    · simp [strays, entered] at astray
    · simp [strays, entered] at astray
    · simp [strays, entered] at astray
    · simp only [strays, inside, Bool.and_eq_true, Bool.or_eq_true] at astray
      obtain ⟨frees, left⟩ := astray
      have effects := next_effects hnext
      have gone : u.freed = true := by rw [effects.freed, frees, Bool.or_true]
      obtain rfl := effects.returns frees
      cases write with
      | true => exact entered_misuses live gone rfl (.inr rfl)
      | false =>
        -- the poller thread leaves `OnActive`, and `Close` goes on with the freed context
        obtain ⟨p, closing⟩ := Option.isSome_iff_exists.mp (left.resolve_left (by simp))
        have hstep : step { u with onActive := .enter false false } (.poller .ok) =
            some { u with mtx := none, onActive := .idle } := by
          simp [step, show u.misused = false from live, Sys.poller]
        obtain ⟨v, run, hv⟩ := inside_misuses .closer
          (s := { u with mtx := none, onActive := .idle }) live gone
          (effects.events.2.2.trans closing) (.inr rfl)
        exact ⟨v, (Runs.next .refl trivial hstep).trans run, hv⟩

theorem closer_strays {s t : Sys} {answer : Answer} (I : Held s)
    (astray : strays s (.closer answer) = true) (h : s.closer answer = some t) :
    ∃ u, Reaches step t u ∧ u.misused = true := by
  cases live : t.misused with
  | true => exact already_misuses live
  | false =>
    obtain ⟨place, u, next, hplace, hnext, rfl⟩ := closer_cases h
    simp only [strays, hplace, Option.any_some, Bool.and_eq_true, decide_eq_true_eq] at astray
    obtain ⟨frees, there⟩ := astray
    have effects := next_effects hnext
    have gone : u.freed = true := by rw [effects.freed, frees, Bool.or_true]
    obtain rfl := effects.returns frees
    have same : u.onActive = s.onActive := effects.events.1
    cases onActive : s.onActive with
    | idle => exact absurd onActive there
    | inside write p =>
      exact inside_misuses .poller (p := p) live gone
        (by simp [Sys.place, same, onActive]) (.inr rfl)
    | enter read write =>
      -- both threads would hold the mutex
      have held : s.mtx = some .poller := I.poller.mpr (by rw [onActive]; rfl)
      cases locked : place.locked with
      | true =>
        have other : s.mtx = some .closer := I.closer.mpr (by rw [hplace]; exact locked)
        cases held.symm.trans other
      | false => cases held.symm.trans (effects.waits locked rfl)

/-- A step that goes astray leads to a use of the freed context. -/
theorem strays_misuses {s t : Sys} {a : Label} (run : Reaches step start s)
    (astray : strays s a = true) (h : step s a = some t) :
    ∃ u, Reaches step t u ∧ u.misused = true := by
  have I := reaches_held run
  unfold step at h
  split at h
  · cases h
  rename_i live
  rw [Bool.not_eq_true] at live
  cases a with
  | collect events => cases astray
  | active =>
    obtain ⟨event, rest, idle, more, -, rfl⟩ := active_cases h
    simp only [strays, more, List.head?_cons, Option.any_some, Event.any,
      Bool.and_eq_true] at astray
    obtain ⟨freed, flags⟩ := astray
    exact entered_misuses live freed rfl (by simpa using flags)
  | poller answer => exact poller_strays astray h
  | close =>
    simp only [strays, Bool.and_eq_true, Bool.not_eq_true'] at astray
    obtain ⟨freed, opened⟩ := astray
    obtain ⟨-, ⟨closed, -⟩ | ⟨-, made⟩⟩ := close_cases h
    · cases closed.symm.trans opened
    · rcases made with rfl | ⟨-, rfl⟩ <;> exact already_misuses (by simp [Sys.use, freed])
  | closer answer => exact closer_strays I astray h
  | redisAsyncCommand fn privdata formatted =>
    simp only [strays, Bool.and_eq_true, Bool.not_eq_true'] at astray
    obtain ⟨freed, opened⟩ := astray
    obtain ⟨-, ⟨closed, -⟩ | ⟨-, made⟩⟩ := redisAsyncCommand_cases h
    · cases closed.symm.trans opened
    · rcases made with rfl | ⟨nodes, next, -, rfl⟩ <;>
        exact already_misuses (by simp [Sys.use, freed])

end Hwnet.RedisCli
