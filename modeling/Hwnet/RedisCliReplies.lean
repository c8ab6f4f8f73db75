import Hwnet.RedisCli

set_option autoImplicit false

/-!
# The function a reply reaches

The queue of hiredis holds every command that waits for its answer, `redisFns` the functions of
those that have one, and while a function runs its node is still in front. What a step does to the
two queues is one of six moves, and each of them keeps the queues aligned.
-/
namespace Hwnet.RedisCli

open Machine

/-! ## Moves of the queues -/

structure Queues where
  replies : List Callback
  redisFns : List (ℕ × RedisCallback)
  issued : List Call
  answered : List ℕ
  invoked : List Call

def Sys.queues (s : Sys) : Queues := ⟨s.replies, s.redisFns, s.issued, s.answered, s.invoked⟩

inductive Hand where
  | empty
  | calling (cb : Callback) (node : Option ℕ)
  | called

def Place.hand : Place → Hand
  | .calling cb node _ => .calling cb node
  | .called _ => .called
  | _ => .empty

def OnActive.hand : OnActive → Hand
  | .inside _ place => place.hand
  | _ => .empty

/-- A command is accepted; `nodes` holds its function, if it has one. -/
def Queues.issue (q : Queues) (fn : Option RedisCallback) (privdata : ℕ)
    (nodes : List (ℕ × RedisCallback)) : Queues :=
  { q with
    replies := q.replies ++ [⟨q.issued.length, fn.isSome, privdata⟩]
    redisFns := q.redisFns ++ nodes
    issued := q.issued ++ [⟨q.issued.length, fn, privdata⟩] }

inductive Moves : Queues → Hand → Queues → Hand → Prop where
  | stay (q : Queues) (h : Hand) : Moves q h q h
  | skip (q : Queues) (cb : Callback) (rest : List Callback) (front : q.replies = cb :: rest)
      (null : cb.getCallback = false) : Moves q .empty { q with replies := rest } .empty
  | call (q : Queues) (cb : Callback) (rest : List Callback) (front : q.replies = cb :: rest)
      (set : cb.getCallback = true) :
      Moves q .empty { q with replies := rest, answered := q.answered ++ [cb.command] }
        (.calling cb (q.redisFns.head?.map (·.1)))
  | invoke (q : Queues) (cb : Callback) (node : Option ℕ) :
      Moves q (.calling cb node) { q with
        invoked := q.invoked ++ [⟨cb.command,
          node.bind fun n => (q.redisFns.find? (·.1 = n)).map (·.2), cb.privdata⟩] } .called
  | pop (q : Queues) : Moves q .called { q with redisFns := q.redisFns.tail } .empty

theorem runCallback_moves {s : Sys} {cb : Callback} {rest : List Callback} {reply : Bool}
    (front : s.replies = cb :: rest) :
    Moves s.queues .empty (s.runCallback cb rest reply).1.queues
      (s.runCallback cb rest reply).2.hand := by
  unfold Sys.runCallback
  cases set : cb.getCallback with
  | true => exact .call s.queues cb rest front set
  | false => cases reply <;> exact .skip s.queues cb rest front set

theorem next_moves {side : Side} {s t : Sys} {p : Place} {a : Answer} {q : Option Place}
    (h : p.next side s a = some (t, q)) :
    Moves s.queues p.hand t.queues (q.elim .empty Place.hand) := by
  cases p with
  | handleConnect half =>
    cases a with
    | ok | again | error => cases h; exact .stay s.queues .empty
    | noReply flushed | reply error => cases h
  | connectRefused | connectCalled half | notifying =>
    cases a with
    | ok =>
      obtain ⟨-, h⟩ := map_relock h
      cases h
      exact .stay s.queues .empty
    | _ => cases h
  | connectFailed | disconnected | removing =>
    cases a with
    | ok => cases h; exact .stay s.queues .empty
    | _ => cases h
  | buffer half =>
    cases a with
    | ok | error => cases half <;> cases h <;> exact .stay s.queues .empty
    | _ => cases half <;> cases h
  | processCallbacks =>
    cases a with
    | error => cases h; exact .stay s.queues .empty
    | noReply flushed =>
      simp only [Place.next] at h
      split at h <;> cases h <;> exact .stay s.queues .empty
    | reply error =>
      simp only [Place.next] at h
      split at h
      · split at h
        · cases h; exact .stay s.queues .empty
        · cases h
      · rename_i front
        cases h
        exact runCallback_moves front
    | _ => cases h
  | calling cb node reply =>
    cases a with
    | ok => cases h; exact .invoke s.queues cb node
    | _ => cases h
  | called reply =>
    cases a with
    | ok =>
      obtain ⟨-, h⟩ := map_relock h
      cases h
      cases reply <;> exact .pop s.queues
    | _ => cases h
  | free =>
    cases a with
    | ok =>
      simp only [Place.next] at h
      split at h
      · split at h <;> cases h <;> exact .stay s.queues .empty
      · rename_i front
        cases h
        exact runCallback_moves front
    | _ => cases h

/-! ## The thread that closes -/

def Place.closes : Place → Bool
  | .free | .disconnected | .removing | .notifying => true
  | _ => false

theorem next_closes {side : Side} {s t : Sys} {p : Place} {a : Answer} {q : Option Place}
    (closes : p.closes = true) (none : s.replies = []) (h : p.next side s a = some (t, q)) :
    (∀ r, q = some r → r.closes = true) ∧ t.queues = s.queues := by
  cases p with
  | free =>
    cases a with
    | ok =>
      simp only [Place.next, none] at h
      split at h <;> cases h <;> exact ⟨by simp [Place.closes], rfl⟩
    | _ => cases h
  | disconnected | removing =>
    cases a with
    | ok => cases h; exact ⟨by simp [Place.closes], rfl⟩
    | _ => cases h
  | notifying =>
    cases a with
    | ok =>
      obtain ⟨-, h⟩ := map_relock h
      cases h
      exact ⟨by simp, rfl⟩
    | _ => cases h
  | _ => cases closes

theorem Moves.nil {q r : Queues} {h k : Hand} (moves : Moves q h r k) (none : q.replies = []) :
    r.replies = [] := by
  cases moves with
  | stay | invoke | pop => exact none
  | skip cb rest front | call cb rest front => cases front.symm.trans none

def Closing (s : Sys) : Prop :=
  ∀ p, s.closing = some p → p.closes = true ∧ s.closed = true ∧ s.replies = []

inductive Turns (s t : Sys) : Prop where
  | inside (moves : Moves s.queues s.onActive.hand t.queues t.onActive.hand)
  | issue (opened : s.closed = false) (fn : Option RedisCallback) (privdata : ℕ)
      (nodes : List (ℕ × RedisCallback)) (holds : nodes.map Prod.snd = fn.toList)
      (queues : t.queues = s.queues.issue fn privdata nodes)
      (same : t.onActive.hand = s.onActive.hand)

theorem Turns.still {s t : Sys} (queues : t.queues = s.queues)
    (same : t.onActive.hand = s.onActive.hand) : Turns s t := by
  refine .inside ?_
  rw [queues, same]
  exact .stay _ _

theorem handle_moves (s : Sys) (half : Half) (write : Bool) :
    Moves s.queues .empty (s.handle half write).queues (s.handle half write).onActive.hand := by
  unfold Sys.handle
  cases s.connected <;> exact .stay s.queues .empty

theorem poller_moves {s t : Sys} {answer : Answer} (h : s.poller answer = some t) :
    Moves s.queues s.onActive.hand t.queues t.onActive.hand := by
  rcases poller_cases h with ⟨write, entered, rfl⟩ | ⟨entered, rfl⟩ | ⟨entered, rfl⟩ |
    ⟨write, place, u, next, inside, hnext, rfl⟩
  · rw [entered]
    exact handle_moves s .read write
  · rw [entered]
    exact handle_moves s .write false
  · rw [entered]
    exact .stay s.queues .empty
  · rw [inside]
    have moves := next_moves hnext
    cases next <;> exact moves

theorem closer_still {s t : Sys} {answer : Answer} (I : Closing s) (h : s.closer answer = some t) :
    t.queues = s.queues ∧ t.onActive = s.onActive ∧ Closing t := by
  obtain ⟨place, u, next, hplace, hnext, rfl⟩ := closer_cases h
  obtain ⟨closes, closed, none⟩ := I place hplace
  obtain ⟨stays, queues⟩ := next_closes closes none hnext
  have effects := next_effects hnext
  refine ⟨queues, effects.events.1, fun p hp => ⟨stays p hp, effects.closed closed, ?_⟩⟩
  exact (congrArg Queues.replies queues).trans none

theorem step_turns {s t : Sys} {a : Label} (I : Closing s) (h : step s a = some t) :
    Turns s t := by
  unfold step at h
  split at h
  · cases h
  cases a with
  | collect events =>
    obtain ⟨-, rfl⟩ := collect_cases h
    exact .still rfl rfl
  | active =>
    obtain ⟨event, rest, idle, -, -, rfl⟩ := active_cases h
    exact .still rfl (by rw [idle]; rfl)
  | poller answer => exact .inside (poller_moves h)
  | close =>
    obtain ⟨-, ⟨-, rfl⟩ | ⟨-, rfl | ⟨-, rfl⟩⟩⟩ := close_cases h <;> exact .still rfl rfl
  | closer answer =>
    obtain ⟨queues, same, -⟩ := closer_still I h
    exact .still queues (by rw [same])
  | redisAsyncCommand fn privdata formatted =>
    obtain ⟨-, ⟨-, rfl⟩ | ⟨opened, rfl | ⟨nodes, next, holds, rfl⟩⟩⟩ := redisAsyncCommand_cases h
    · exact .still rfl rfl
    · exact .still rfl rfl
    · exact .issue opened fn privdata nodes holds rfl rfl

theorem poller_closing {s t : Sys} {answer : Answer} (I : Closing s)
    (h : s.poller answer = some t) : Closing t := by
  have moves := poller_moves h
  have keeps : t.closing = s.closing ∧ (s.closed = true → t.closed = true) := by
    rcases poller_cases h with ⟨write, entered, rfl⟩ | ⟨entered, rfl⟩ | ⟨entered, rfl⟩ |
      ⟨write, place, u, next, inside, hnext, rfl⟩
    · exact ⟨rfl, id⟩
    · exact ⟨rfl, id⟩
    · exact ⟨rfl, id⟩
    · exact ⟨(next_effects hnext).events.2.2, (next_effects hnext).closed⟩
  intro p hp
  obtain ⟨closes, closed, none⟩ := I p (keeps.1.symm.trans hp)
  exact ⟨closes, keeps.2 closed, moves.nil none⟩

theorem step_closing {s t : Sys} {a : Label} (I : Closing s) (h : step s a = some t) :
    Closing t := by
  unfold step at h
  split at h
  · cases h
  cases a with
  | collect events =>
    obtain ⟨-, rfl⟩ := collect_cases h
    exact I
  | active =>
    obtain ⟨event, rest, -, -, -, rfl⟩ := active_cases h
    exact I
  | poller answer => exact poller_closing I h
  | close =>
    obtain ⟨-, ⟨-, rfl⟩ | ⟨opened, rfl | ⟨none, rfl⟩⟩⟩ := close_cases h
    · exact I
    · exact fun p hp => absurd (I p hp).2.1 (by simp [opened])
    · intro p hp
      obtain rfl := Option.some.inj hp
      exact ⟨rfl, rfl, none⟩
  | closer answer => exact (closer_still I h).2.2
  | redisAsyncCommand fn privdata formatted =>
    obtain ⟨-, ⟨-, rfl⟩ | ⟨opened, rfl | ⟨nodes, next, -, rfl⟩⟩⟩ := redisAsyncCommand_cases h
    · exact I
    · exact I
    · exact fun p hp => absurd (I p hp).2.1 (by simp [opened])

/-! ## Alignment -/

def withFn (calls : List Call) : List Call := calls.filter fun c => c.fn.isSome

/-- How the functions and the invocations stand to the commands `done`, which have been answered,
and to those that wait. -/
def Aligned (q : Queues) (done waiting : List Call) : Hand → Prop
  | .empty => q.invoked = withFn done ∧ q.redisFns.map Prod.snd = waiting.filterMap Call.fn
  | .calling cb node => ∃ before fn n rest, done = before ++ [⟨cb.command, some fn, cb.privdata⟩] ∧
      q.invoked = withFn before ∧ node = some n ∧ q.redisFns = (n, fn) :: rest ∧
      rest.map Prod.snd = waiting.filterMap Call.fn
  | .called => q.invoked = withFn done ∧
      q.redisFns.tail.map Prod.snd = waiting.filterMap Call.fn ∧ q.redisFns ≠ []

/-- The commands are numbered; `done` of them have been answered and the others wait. -/
structure Matched (q : Queues) (h : Hand) (done waiting : List Call) : Prop where
  issued : q.issued = done ++ waiting
  numbered : q.issued.map Call.command = List.range q.issued.length
  replies : q.replies = waiting.map Call.callback
  answered : q.answered = (withFn done).map Call.command
  aligned : Aligned q done waiting h

section Lists

variable {c : Call} {done : List Call}

theorem withFn_skip (h : c.fn.isSome = false) : withFn (done ++ [c]) = withFn done := by
  simp [withFn, h]

theorem withFn_take (h : c.fn.isSome = true) : withFn (done ++ [c]) = withFn done ++ [c] := by
  simp [withFn, h]

end Lists

/-- The callback in front is that of the first command that waits. -/
theorem Matched.front {q : Queues} {h : Hand} {done waiting : List Call} {cb : Callback}
    {rest : List Callback} (matched : Matched q h done waiting) (front : q.replies = cb :: rest) :
    ∃ c later, waiting = c :: later ∧ c.callback = cb ∧ rest = later.map Call.callback ∧
      q.issued = (done ++ [c]) ++ later := by
  have replies := matched.replies
  cases waiting with
  | nil => cases front.symm.trans replies
  | cons c later =>
    obtain ⟨rfl, rfl⟩ := List.cons.inj (front.symm.trans replies)
    refine ⟨c, later, rfl, rfl, rfl, ?_⟩
    rw [matched.issued, List.append_assoc, List.singleton_append]

theorem Matched.moves {q r : Queues} {h k : Hand} {done waiting : List Call}
    (matched : Matched q h done waiting) (moves : Moves q h r k) :
    ∃ done' waiting', Matched r k done' waiting' := by
  cases moves with
  | stay => exact ⟨done, waiting, matched⟩
  | skip cb rest front null =>
    obtain ⟨c, later, rfl, rfl, rfl, split⟩ := matched.front front
    obtain ⟨invoked, fns⟩ := matched.aligned
    have hc : c.fn = none := Option.isSome_eq_false_iff.mp null |> Option.isNone_iff_eq_none.mp
    refine ⟨done ++ [c], later, split, matched.numbered, rfl, ?_, ?_, ?_⟩
    · rw [withFn_skip null]
      exact matched.answered
    · rw [withFn_skip null]
      exact invoked
    · simpa [hc] using fns
  | call cb rest front set =>
    obtain ⟨c, later, rfl, rfl, rfl, split⟩ := matched.front front
    obtain ⟨invoked, fns⟩ := matched.aligned
    obtain ⟨fn, hc⟩ := Option.isSome_iff_exists.mp set
    rw [List.filterMap_cons_some hc] at fns
    obtain ⟨node, nodes, hnodes, rfl, hrest⟩ := List.map_eq_cons_iff.mp fns
    refine ⟨done ++ [c], later, split, matched.numbered, rfl, ?_, ?_⟩
    · rw [withFn_take set, List.map_append, ← matched.answered]
      rfl
    · refine ⟨done, node.2, node.1, nodes, ?_, invoked, ?_, hnodes, hrest⟩
      · rw [← hc]; rfl
      · rw [hnodes]; rfl
  | invoke cb node =>
    obtain ⟨before, fn, n, rest, rfl, invoked, rfl, hfns, hrest⟩ := matched.aligned
    refine ⟨_, waiting, matched.issued, matched.numbered, matched.replies, matched.answered, ?_,
      ?_, ?_⟩
    · rw [withFn_take rfl, ← invoked]
      simp [hfns]
    · simpa [hfns] using hrest
    · simp [hfns]
  | pop =>
    obtain ⟨invoked, fns, -⟩ := matched.aligned
    exact ⟨done, waiting, matched.issued, matched.numbered, matched.replies, matched.answered,
      invoked, fns⟩

theorem Aligned.issue {q : Queues} {done waiting : List Call} {h : Hand} {fn : Option RedisCallback}
    {privdata : ℕ} {nodes : List (ℕ × RedisCallback)} (holds : nodes.map Prod.snd = fn.toList)
    (aligned : Aligned q done waiting h) :
    Aligned (q.issue fn privdata nodes) done (waiting ++ [⟨q.issued.length, fn, privdata⟩]) h := by
  have later : [(⟨q.issued.length, fn, privdata⟩ : Call)].filterMap Call.fn = fn.toList := by
    cases fn <;> rfl
  cases h with
  | empty =>
    obtain ⟨invoked, fns⟩ := aligned
    refine ⟨invoked, ?_⟩
    rw [List.filterMap_append, later, ← fns, ← holds, ← List.map_append]
    rfl
  | calling cb node =>
    obtain ⟨before, f, n, rest, hdone, invoked, hnode, hfns, hrest⟩ := aligned
    refine ⟨before, f, n, rest ++ nodes, hdone, invoked, hnode, ?_, ?_⟩
    · simp [Queues.issue, hfns]
    · rw [List.filterMap_append, later, ← hrest, ← holds, ← List.map_append]
  | called =>
    obtain ⟨invoked, fns, front⟩ := aligned
    refine ⟨invoked, ?_, by simp [Queues.issue, front]⟩
    rw [List.filterMap_append, later, ← fns, ← holds, ← List.map_append]
    exact congrArg _ (List.tail_append_of_ne_nil front)

theorem Matched.issue {q : Queues} {h : Hand} {done waiting : List Call} {privdata : ℕ}
    {fn : Option RedisCallback} {nodes : List (ℕ × RedisCallback)}
    (matched : Matched q h done waiting) (holds : nodes.map Prod.snd = fn.toList) :
    Matched (q.issue fn privdata nodes) h done
      (waiting ++ [⟨q.issued.length, fn, privdata⟩]) where
  issued := by
    simp only [Queues.issue, matched.issued, List.append_assoc]
  numbered := by
    simp only [Queues.issue, List.map_append, List.length_append, List.length_singleton,
      List.range_succ, matched.numbered, List.map_cons, List.map_nil]
  replies := by
    simp only [Queues.issue, List.map_append, ← matched.replies]
    rfl
  answered := matched.answered
  aligned := matched.aligned.issue holds

/-! ## Runs -/

theorem reaches_closing {s : Sys} (h : Reaches step start s) : Closing s :=
  h.invariant (fun _ hp => by cases hp) fun _ _ _ _ I _ hstep => step_closing I hstep

theorem start_matched : Matched start.queues start.onActive.hand [] [] where
  issued := rfl
  numbered := rfl
  replies := rfl
  answered := rfl
  aligned := ⟨rfl, rfl⟩

theorem reaches_matched {s : Sys} (h : Reaches step start s) :
    ∃ done waiting, Matched s.queues s.onActive.hand done waiting := by
  refine h.invariant (I := fun s => ∃ done waiting, Matched s.queues s.onActive.hand done waiting)
    ⟨[], [], start_matched⟩ ?_
  rintro u v a run ⟨done, waiting, matched⟩ - hstep
  cases step_turns (reaches_closing run) hstep with
  | inside moves => exact matched.moves moves
  | issue _ fn privdata nodes holds queues same =>
    rw [queues, same]
    exact ⟨_, _, matched.issue holds⟩

def Hand.command : Hand → Option ℕ
  | .calling cb _ => some cb.command
  | _ => none

theorem withFn_callbacks (calls : List Call) :
    ((calls.map Call.callback).filter (·.getCallback)).map Callback.command =
      (withFn calls).map Call.command := by
  rw [List.filter_map, List.map_map]
  rfl

theorem Matched.answers {q : Queues} {h : Hand} {done waiting : List Call}
    (matched : Matched q h done waiting) :
    q.invoked <+: withFn q.issued ∧
      q.answered = q.invoked.map Call.command ++ h.command.toList := by
  rw [matched.issued, matched.answered]
  have prefixed : withFn done <+: withFn (done ++ waiting) := by
    simp only [withFn, List.filter_append]
    exact List.prefix_append _ _
  have aligned := matched.aligned
  cases h with
  | empty => exact ⟨aligned.1 ▸ prefixed, by simp [aligned.1, Hand.command]⟩
  | called => exact ⟨aligned.1 ▸ prefixed, by simp [aligned.1, Hand.command]⟩
  | calling cb node =>
    obtain ⟨before, fn, n, rest, rfl, invoked, -, -, -⟩ := aligned
    rw [withFn_take rfl] at prefixed ⊢
    rw [invoked]
    exact ⟨(List.prefix_append _ _).trans prefixed, by simp [Hand.command]⟩

/-- `getCallback` invokes the function that its command was issued with. -/
theorem Matched.invokes {s : Sys} {write : Bool} {cb : Callback} {node : Option ℕ} {reply : Bool}
    {done waiting : List Call} (matched : Matched s.queues s.onActive.hand done waiting)
    (there : s.onActive = .inside write (.calling cb node reply)) (live : s.misused = false) :
    ∃ t c, step s (.poller .ok) = some t ∧ c ∈ s.issued ∧ c.command = cb.command ∧
      c.fn.isSome = true ∧ t.invoked = s.invoked ++ [c] := by
  have aligned := matched.aligned
  rw [there] at aligned
  obtain ⟨before, fn, n, rest, rfl, -, rfl, hfns, -⟩ := aligned
  have hderef : s.deref n = some fn := by
    rw [Sys.deref, show s.redisFns = (n, fn) :: rest from hfns]
    simp
  have hstep : step s (.poller .ok) = some { s with
      invoked := s.invoked ++ [⟨cb.command, s.deref n, cb.privdata⟩]
      onActive := .inside write (.called reply) } := by
    simp [step, live, Sys.poller, there, Place.next]
  have issued : s.issued = _ := matched.issued
  rw [hderef] at hstep
  exact ⟨_, ⟨cb.command, some fn, cb.privdata⟩, hstep, by rw [issued]; simp, rfl, rfl, rfl⟩

/-- Over every run the functions invoked are those of the first commands that have one, each for
its own command, once and in order; `getCallback` was called for these and for the one that is next,
and hiredis keeps a callback of the others. -/
theorem replies_reach {s : Sys} (h : Reaches step start s) :
    s.issued.map Call.command = List.range s.issued.length ∧
    s.invoked <+: withFn s.issued ∧
    s.answered = s.invoked.map Call.command ++ s.onActive.hand.command.toList ∧
    s.answered ++ (s.replies.filter (·.getCallback)).map Callback.command =
      (withFn s.issued).map Call.command ∧
    ∀ write cb node reply, s.onActive = .inside write (.calling cb node reply) →
      s.misused = false → ∃ t c, step s (.poller .ok) = some t ∧ c ∈ s.issued ∧
        c.command = cb.command ∧ c.fn.isSome = true ∧ t.invoked = s.invoked ++ [c] := by
  obtain ⟨done, waiting, matched⟩ := reaches_matched h
  refine ⟨matched.numbered, matched.answers.1, matched.answers.2, ?_, ?_⟩
  · have answered : s.answered = _ := matched.answered
    have replies : s.replies = _ := matched.replies
    have issued : s.issued = _ := matched.issued
    rw [answered, replies, issued, withFn_callbacks, ← List.map_append]
    simp only [withFn, List.filter_append]
  · intro write cb node reply there live
    exact matched.invokes there live

def answeredRun : List Label :=
  [.collect [⟨true, false, false⟩], .active, .poller .ok, .poller .ok,
    .redisAsyncCommand (some 7) 70 true, .redisAsyncCommand none 71 true,
    .redisAsyncCommand (some 8) 80 true, .poller .ok, .poller .ok, .poller (.reply false),
    .poller .ok, .redisAsyncCommand (some 9) 90 true, .poller .ok, .poller (.reply false),
    .poller (.reply false), .poller .ok]

theorem replies_reach_answered : ∃ s, exec step start answeredRun = some s ∧
    s.invoked = [⟨0, some 7, 70⟩, ⟨2, some 8, 80⟩] ∧ s.invoked <+: withFn s.issued :=
  ⟨_, rfl, rfl, (replies_reach (Reaches.of_exec answeredRun rfl)).2.1⟩

end Hwnet.RedisCli
