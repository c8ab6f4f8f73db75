import Hwnet.TimerThreads

set_option autoImplicit false

/-!
# What a step of the threads can do

The mutex keeps the heap well formed however the threads interleave. With that every step succeeds
as its operation specifies, and is one of the few `Moved`s that matter to a timer.
-/
namespace Hwnet.TimerMgr

open Timer

/-! ## Where a thread is -/

def SchedulePc.holding : SchedulePc → Bool
  | .loop _ | .claim _ _ | .pop _ _ _ | .settle _ _ _ | .insert _ _ => true
  | _ => false

def SchedulePc.front : SchedulePc → Option Ptr
  | .claim _ t | .pop _ t _ => some t
  | _ => none

def SchedulePc.timer : SchedulePc → Option Ptr
  | .idle | .lock _ | .loop _ => none
  | .claim _ t | .pop _ t _ | .call _ t | .running _ t | .relock _ t _ | .settle _ t _ => some t
  | .insert _ t | .thrown t => some t

def CancelPc.timer : CancelPc → Option Ptr
  | .idle => none
  | .cas1 t | .cas2 t | .load t _ | .readTid t | .readMgr t | .remove t _ | .crashed t => some t

/-- The timer whose status the thread has set to `incallback`, until it is through with it. -/
def SchedulePc.owns : SchedulePc → Option Ptr
  | .pop _ t true | .call _ t | .running _ t | .relock _ t true | .settle _ t true => some t
  | _ => none

def SchedulePc.refused : SchedulePc → Option Ptr
  | .pop _ t false => some t
  | _ => none

def SchedulePc.inserting : SchedulePc → Option Ptr
  | .insert _ t => some t
  | _ => none

def CancelPc.won : CancelPc → Option Ptr
  | .load t true | .readMgr t | .remove t _ => some t
  | _ => none

def CancelPc.joined : CancelPc → Option Ptr
  | .load t false | .readTid t => some t
  | _ => none

/-! ## Statuses and owners -/

@[simp] theorem incallback_ne_zero : incallback ≠ 0 := by decide

@[simp] theorem canceled_ne_zero : canceled ≠ 0 := by decide

theorem setTimer_status (m : TimerMgr) (t : Ptr) (x : Timer) :
    (m.setTimer t x).status = Function.update m.status t x.mStatus := by
  funext u
  by_cases hut : u = t
  · simp [hut, status, setTimer_self]
  · simp [hut, status, setTimer_of_ne m x hut]

theorem setTimer_mMgr (m : TimerMgr) (t : Ptr) (x : Timer) :
    (m.setTimer t x).mMgr = Function.update m.mMgr t x.mMgr := by
  funext u
  by_cases hut : u = t
  · simp [hut, mMgr, setTimer_self]
  · simp [hut, mMgr, setTimer_of_ne m x hut]

theorem Others.status {m m' : TimerMgr} {t : Ptr} (h : Others m m' t)
    (same : (m'.timers t).mStatus = (m.timers t).mStatus) : m'.status = m.status := by
  funext u
  by_cases hut : u = t
  · simp [hut, TimerMgr.status, same]
  · obtain ⟨idx, hidx⟩ := h.timers u hut
    simp [TimerMgr.status, hidx]

theorem Others.mMgr {m m' : TimerMgr} {t : Ptr} (h : Others m m' t) :
    m'.mMgr = Function.update m.mMgr t (m'.timers t).mMgr := by
  funext u
  by_cases hut : u = t
  · simp [hut, TimerMgr.mMgr]
  · obtain ⟨idx, hidx⟩ := h.timers u hut
    simp [hut, TimerMgr.mMgr, hidx]

/-! ## The manager under its mutex -/

structure Serves (s : Sys) (m : TimerMgr) : Prop where
  heap : Heap m
  owned : ∀ t ∈ s.handles, m.mMgr t = none ∨ m.mMgr t = some m.self
  known : ∀ t, m.Has t → t ∈ s.handles
  fresh : ∀ t, t ∉ s.handles → m.status t = 0

structure Sound (s : Sys) : Prop where
  serves : Serves s s.mgr
  lock : ∀ (i : ThreadId) (th : Thread), s.threads[i]? = some th →
    (th.schedule.holding = true ↔ s.mtx = some i)
  front : ∀ (i : ThreadId) (th : Thread) (t : Ptr), s.threads[i]? = some th →
    th.schedule.front = some t → 0 < s.mgr.elementsSize ∧ s.mgr.elem 1 = some t
  schedule : ∀ (i : ThreadId) (th : Thread) (t : Ptr), s.threads[i]? = some th →
    th.schedule.timer = some t → t ∈ s.handles
  cancel : ∀ (i : ThreadId) (th : Thread) (t : Ptr), s.threads[i]? = some th →
    th.cancel.timer = some t → t ∈ s.handles

/-- The owner of `t` is the only one that has changed, and the timers of the heap were in it or are
`t`. -/
theorem Serves.of_update {s : Sys} {m m' : TimerMgr} {t : Ptr} {o : Option MgrPtr} {x : UInt32}
    (h : Serves s m) (handle : t ∈ s.handles) (heap : Heap m') (self : m'.self = m.self)
    (mMgr : m'.mMgr = Function.update m.mMgr t o) (owned : o = none ∨ o = some m.self)
    (status : m'.status = Function.update m.status t x)
    (has : ∀ u, u ≠ t → m'.Has u → m.Has u) : Serves s m' where
  heap := heap
  owned := by
    intro u hu
    rw [mMgr, self]
    by_cases hut : u = t
    · simpa [hut] using owned
    · simpa [hut] using h.owned u hu
  known := by
    intro u hu
    by_cases hut : u = t
    · exact hut ▸ handle
    · exact h.known u (has u hut hu)
  fresh := by
    intro u hu
    have hut : u ≠ t := fun hut => hu (hut ▸ handle)
    simpa [status, hut] using h.fresh u hu

theorem Serves.of_owner {s : Sys} {m m' : TimerMgr} {t : Ptr} {o : Option MgrPtr}
    (h : Serves s m) (handle : t ∈ s.handles) (heap : Heap m') (self : m'.self = m.self)
    (mMgr : m'.mMgr = Function.update m.mMgr t o) (owned : o = none ∨ o = some m.self)
    (status : m'.status = m.status) (has : ∀ u, u ≠ t → m'.Has u → m.Has u) : Serves s m' := by
  apply h.of_update (x := m.status t) handle heap self mMgr owned ?_ has
  rw [status, Function.update_eq_self]

/-- What no business of the heap may be assigned. -/
structure Aside (x y : Timer) : Prop where
  index : y.mIndex = x.mIndex
  mgr : y.mMgr = x.mMgr
  selfPtr : y.selfPtr = x.selfPtr
  expired : y.mExpiredTime = x.mExpiredTime

theorem Serves.setTimer {s : Sys} {m : TimerMgr} (h : Serves s m) {t : Ptr} {x : Timer}
    (handle : t ∈ s.handles) (aside : Aside (m.timers t) x) : Serves s (m.setTimer t x) := by
  refine h.of_update handle ?_ rfl (setTimer_mMgr m t x) ?_ (setTimer_status m t x) ?_
  · exact h.heap.setTimer aside.index aside.mgr aside.selfPtr aside.expired
  · exact aside.mgr ▸ h.owned t handle
  · exact fun u _ => (setTimer_has _ _ _ u).mp

theorem Aside.mMgr {m : TimerMgr} {t : Ptr} {x : Timer} (h : Aside (m.timers t) x) :
    (m.setTimer t x).mMgr = m.mMgr := by
  rw [setTimer_mMgr, h.mgr]
  exact Function.update_eq_self t m.mMgr

def SameSlots (m m' : TimerMgr) : Prop :=
  m'.elementsSize = m.elementsSize ∧ ∀ k, m'.elem k = m.elem k

theorem SameSlots.setTimer (m : TimerMgr) (t : Ptr) (x : Timer) : SameSlots m (m.setTimer t x) :=
  ⟨rfl, elem_setTimer m t x⟩

/-- What a thread does between two points at which it gives way. -/
structure Works (s : Sys) (i : ThreadId) (th : Thread) (w : Sys) (th' : Thread) : Prop where
  threads : w.threads = s.threads
  handles : w.handles = s.handles
  serves : Serves s w.mgr
  slots : SameSlots s.mgr w.mgr ∨ th.schedule.holding = true ∨ s.mtx = none
  mtx : w.mtx = if th'.schedule.holding then some i else
    if th.schedule.holding then none else s.mtx
  free : th'.schedule.holding = true → th.schedule.holding = true ∨ s.mtx = none
  front : ∀ t, th'.schedule.front = some t → 0 < w.mgr.elementsSize ∧ w.mgr.elem 1 = some t
  schedule : ∀ t, th'.schedule.timer = some t → t ∈ s.handles
  cancel : ∀ t, th'.cancel.timer = some t → t ∈ s.handles

theorem SchedulePc.holding_of_front {pc : SchedulePc} {t : Ptr} (h : pc.front = some t) :
    pc.holding = true := by
  cases pc <;> first | rfl | cases h

theorem Sound.resume {s w : Sys} {i : ThreadId} {th th' : Thread} (h : Sound s)
    (at_ : s.threads[i]? = some th) (work : Works s i th w th') :
    Sound (Sys.resume i (w, th')) := by
  have hlock := h.lock i th at_
  have hthread {j : ThreadId} {x : Thread} (hx : (w.threads.set i th')[j]? = some x) :
      j = i ∧ x = th' ∨ j ≠ i ∧ s.threads[j]? = some x :=
    Machine.of_getElem?_set (work.threads ▸ hx)
  refine ⟨⟨work.serves.heap, ?_, ?_, ?_⟩, fun j x hx => ?_, fun j x t hx ht => ?_,
    fun j x t hx ht => ?_, fun j x t hx ht => ?_⟩
  · simpa only [Sys.resume, work.handles] using work.serves.owned
  · simpa only [Sys.resume, work.handles] using work.serves.known
  · simpa only [Sys.resume, work.handles] using work.serves.fresh
  · show x.schedule.holding = true ↔ w.mtx = some j
    rw [work.mtx]
    rcases hthread hx with ⟨rfl, rfl⟩ | ⟨hne, hx⟩
    · cases hholds : x.schedule.holding <;> cases hheld : th.schedule.holding <;>
        simp_all
    · have hj := h.lock j x hx
      have hne' : i ≠ j := Ne.symm hne
      have hfree := work.free
      cases hholds : th'.schedule.holding <;> cases hheld : th.schedule.holding <;>
        simp_all
  · show 0 < w.mgr.elementsSize ∧ w.mgr.elem 1 = some t
    rcases hthread hx with ⟨rfl, rfl⟩ | ⟨hne, hx⟩
    · exact work.front t ht
    · have hholds := (h.lock j x hx).mp (SchedulePc.holding_of_front ht)
      rcases work.slots with ⟨hsize, helem⟩ | hheld | hfree
      · rw [hsize, helem]
        exact h.front j x t hx ht
      · rw [hlock.mp hheld, Option.some.injEq] at hholds
        exact absurd hholds.symm hne
      · rw [hfree] at hholds
        cases hholds
  · show t ∈ w.handles
    rw [work.handles]
    rcases hthread hx with ⟨rfl, rfl⟩ | ⟨-, hx⟩
    · exact work.schedule t ht
    · exact h.schedule j x t hx ht
  · show t ∈ w.handles
    rw [work.handles]
    rcases hthread hx with ⟨rfl, rfl⟩ | ⟨-, hx⟩
    · exact work.cancel t ht
    · exact h.cancel j x t hx ht

/-! ## Moves -/

structure Quieter (th th' : Thread) : Prop where
  owns : ∀ t, th'.schedule.owns = some t → th.schedule.owns = some t
  refused : ∀ t, th'.schedule.refused = some t → th.schedule.refused = some t
  inserting : th'.schedule.inserting = th.schedule.inserting
  cancel : th'.cancel = th.cancel ∨ ∃ t, th'.cancel = .cas1 t ∨ th'.cancel = .cas2 t

theorem Quieter.won {th th' : Thread} (h : Quieter th th') {t : Ptr}
    (ht : th'.cancel.won = some t) : th.cancel.won = some t := by
  rcases h.cancel with hsame | ⟨u, hu | hu⟩
  · exact hsame ▸ ht
  all_goals
    rw [hu] at ht
    cases ht

theorem Quieter.joined {th th' : Thread} (h : Quieter th th') {t : Ptr}
    (ht : th'.cancel.joined = some t) : th.cancel.joined = some t := by
  rcases h.cancel with hsame | ⟨u, hu | hu⟩
  · exact hsame ▸ ht
  all_goals
    rw [hu] at ht
    cases ht

/-- `w` differs from `s` in nothing that matters to a timer but these. -/
structure Writes (s w : Sys) (status : Ptr → UInt32) (mMgr : Ptr → Option MgrPtr)
    (events : List Event) : Prop where
  status : w.mgr.status = status
  mMgr : w.mgr.mMgr = mMgr
  log : w.log = s.log ++ events

inductive Moved (s : Sys) (i : ThreadId) : Thread → Sys → Thread → Prop where
  | quiet {th th' : Thread} {w : Sys} (writes : Writes s w s.mgr.status s.mgr.mMgr [])
      (pcs : Quieter th th') : Moved s i th w th'
  | claim {now : UInt64} {t : Ptr} {w : Sys} (zero : s.mgr.status t = 0)
      (writes : Writes s w (Function.update s.mgr.status t incallback) s.mgr.mMgr [.claimed i t]) :
      Moved s i ⟨.claim now t, .idle⟩ w ⟨.pop now t true, .idle⟩
  | refuse {now : UInt64} {t : Ptr} {w : Sys} (nonzero : s.mgr.status t ≠ 0)
      (writes : Writes s w s.mgr.status s.mgr.mMgr []) :
      Moved s i ⟨.claim now t, .idle⟩ w ⟨.pop now t false, .idle⟩
  | pop {now : UInt64} {t : Ptr} {ok : Bool} {w : Sys}
      (writes : Writes s w s.mgr.status (Function.update s.mgr.mMgr t none) []) :
      Moved s i ⟨.pop now t ok, .idle⟩ w ⟨if ok then .call now t else .relock now t ok, .idle⟩
  | rearm {now : UInt64} {t : Ptr} {w : Sys} (busy : s.mgr.status t = incallback)
      (writes : Writes s w (Function.update s.mgr.status t 0) s.mgr.mMgr []) :
      Moved s i ⟨.settle now t true, .idle⟩ w ⟨.insert now t, .idle⟩
  | insert {now : UInt64} {t : Ptr} {w : Sys}
      (writes : Writes s w s.mgr.status (Function.update s.mgr.mMgr t (some s.mgr.self)) []) :
      Moved s i ⟨.insert now t, .idle⟩ w ⟨.loop now, .idle⟩
  | win {t : Ptr} {p : SchedulePc} {w : Sys} (zero : s.mgr.status t = 0)
      (writes : Writes s w (Function.update s.mgr.status t canceled) s.mgr.mMgr []) :
      Moved s i ⟨p, .cas1 t⟩ w ⟨p, .load t true⟩
  | join {t : Ptr} {p : SchedulePc} {w : Sys} (busy : s.mgr.status t = incallback)
      (writes : Writes s w (Function.update s.mgr.status t (incallback ||| canceled)) s.mgr.mMgr
        []) : Moved s i ⟨p, .cas2 t⟩ w ⟨p, .load t false⟩
  | fail {t : Ptr} {p : SchedulePc} {w : Sys} (idle : s.mgr.status t ≠ incallback)
      (writes : Writes s w s.mgr.status s.mgr.mMgr [.returned i t .invaildTimer]) :
      Moved s i ⟨p, .cas2 t⟩ w ⟨p, .idle⟩
  | load {t : Ptr} {first : Bool} {p : SchedulePc} {w : Sys}
      (writes : Writes s w s.mgr.status s.mgr.mMgr []) : Moved s i ⟨p, .load t first⟩ w
        ⟨p, if s.mgr.status t &&& incallback ≠ 0 then .readTid t else .readMgr t⟩
  | doing {t : Ptr} {p : SchedulePc} {w : Sys} (r : CancelResult) (valid : r ≠ .invaildTimer)
      (other : r ≠ .cancelOk) (writes : Writes s w s.mgr.status s.mgr.mMgr [.returned i t r]) :
      Moved s i ⟨p, .readTid t⟩ w ⟨p, .idle⟩
  | through {t : Ptr} {p : SchedulePc} {w : Sys} (m : MgrPtr) (owner : s.mgr.mMgr t = some m)
      (writes : Writes s w s.mgr.status s.mgr.mMgr []) :
      Moved s i ⟨p, .readMgr t⟩ w ⟨p, .remove t m⟩
  | crash {t : Ptr} {p : SchedulePc} {w : Sys} (owner : s.mgr.mMgr t = none)
      (writes : Writes s w s.mgr.status s.mgr.mMgr []) :
      Moved s i ⟨p, .readMgr t⟩ w ⟨p, .crashed t⟩
  | removed {t : Ptr} {m : MgrPtr} {p : SchedulePc} {w : Sys}
      (writes : Writes s w s.mgr.status s.mgr.mMgr [.returned i t .cancelOk]) :
      Moved s i ⟨p, .remove t m⟩ w ⟨p, .idle⟩

theorem Writes.nothing {s w : Sys} (mgr : w.mgr = s.mgr) (log : w.log = s.log) :
    Writes s w s.mgr.status s.mgr.mMgr [] :=
  ⟨by rw [mgr], by rw [mgr], by rw [log, List.append_nil]⟩

abbrev Turn (s : Sys) (i : ThreadId) (th : Thread) (w : Sys) (th' : Thread) : Prop :=
  Works s i th w th' ∧ Moved s i th w th'

section Schedule

variable {s w : Sys} {i : ThreadId} {now : UInt64} {t : Ptr} {ok : Bool} {pc' : SchedulePc}

theorem lock_turn {pc : SchedulePc} (h : Sound s) (at_ : s.threads[i]? = some ⟨pc, .idle⟩)
    (hlock : s.lock i = some w) (holds : pc'.holding = true)
    (front : pc'.front = none) (timer : pc'.timer = pc.timer)
    (pcs : Quieter ⟨pc, .idle⟩ ⟨pc', .idle⟩) : Turn s i ⟨pc, .idle⟩ w ⟨pc', .idle⟩ := by
  unfold Sys.lock at hlock
  split at hlock
  · rename_i hfree
    obtain rfl := Option.some.inj hlock
    refine ⟨⟨rfl, rfl, ?_, .inl ⟨rfl, fun _ => rfl⟩, ?_, fun _ => .inr hfree, ?_, ?_, ?_⟩,
      .quiet (.nothing rfl rfl) pcs⟩
    · exact h.serves
    · simp [holds]
    · simp [front]
    · exact fun t ht => h.schedule i _ t at_ (timer ▸ ht)
    · exact fun t => h.cancel i ⟨pc, .idle⟩ t at_
  · cases hlock

/-- The assignments a thread makes to the timer it is at. -/
theorem Sound.setTimer (h : Sound s) {pc : SchedulePc} (at_ : s.threads[i]? = some ⟨pc, .idle⟩)
    (holds : pc.holding = true) (ht : pc.timer = some t) {x : Timer}
    (aside : Aside (s.mgr.timers t) x) (log : List Event) (holds' : pc'.holding = true)
    (front : ∀ u, pc'.front = some u → pc.front = some u)
    (timer : ∀ u, pc'.timer = some u → pc.timer = some u) :
    Works s i ⟨pc, .idle⟩ { s with mgr := s.mgr.setTimer t x, log } ⟨pc', .idle⟩ where
  threads := rfl
  handles := rfl
  serves := h.serves.setTimer (h.schedule i _ t at_ ht) aside
  slots := .inr (.inl holds)
  mtx := by simpa [holds'] using (h.lock i _ at_).mp holds
  free := fun _ => .inl holds
  front := by
    intro u hu
    obtain ⟨hpos, hroot⟩ := h.front i _ u at_ (front u hu)
    exact ⟨hpos, (elem_setTimer _ _ _ 1).trans hroot⟩
  schedule := fun u hu => h.schedule i _ u at_ (timer u hu)
  cancel := fun u => h.cancel i ⟨pc, .idle⟩ u at_

theorem Aside.writes {x : Timer} (aside : Aside (s.mgr.timers t) x) (events : List Event) :
    Writes s { s with mgr := s.mgr.setTimer t x, log := s.log ++ events }
      (Function.update s.mgr.status t x.mStatus) s.mgr.mMgr events :=
  ⟨setTimer_status s.mgr t x, aside.mMgr, rfl⟩

theorem Aside.writes_quiet {x : Timer} (aside : Aside (s.mgr.timers t) x)
    (same : x.mStatus = (s.mgr.timers t).mStatus) :
    Writes s { s with mgr := s.mgr.setTimer t x } s.mgr.status s.mgr.mMgr [] := by
  refine ⟨?_, aside.mMgr, (List.append_nil _).symm⟩
  rw [setTimer_status, same]
  exact Function.update_eq_self t s.mgr.status

theorem enter_turn (h : Sound s) (at_ : s.threads[i]? = some ⟨.loop now, .idle⟩)
    (henter : s.enter i now = some (w, pc')) : Turn s i ⟨.loop now, .idle⟩ w ⟨pc', .idle⟩ := by
  have hmtx : s.mtx = some i := (h.lock i _ at_).mp rfl
  have hcancel := fun t => h.cancel i _ t at_
  have hleave : Turn s i ⟨.loop now, .idle⟩ { s with mtx := none } ⟨.idle, .idle⟩ :=
    ⟨⟨rfl, rfl, h.serves, .inr (.inl rfl), rfl, nofun, nofun, nofun, hcancel⟩,
      .quiet (.nothing rfl rfl) ⟨nofun, nofun, rfl, .inl rfl⟩⟩
  unfold Sys.enter at henter
  by_cases hpos : 0 < s.mgr.elementsSize
  · obtain ⟨tmp, hroot, hhas, htop⟩ := top_eq h.serves.heap hpos
    rw [if_pos hpos, htop] at henter
    simp only [Option.bind_eq_bind, Option.bind_some] at henter
    split_ifs at henter with hlate
    · cases henter
      exact hleave
    · cases henter
      have hknown := h.serves.known tmp hhas
      have haside : Aside (s.mgr.timers tmp) { s.mgr.timers tmp with tid := some i } :=
        ⟨rfl, rfl, rfl, rfl⟩
      refine ⟨⟨rfl, rfl, h.serves.setTimer hknown haside, .inr (.inl rfl), ?_, fun _ => .inl rfl,
        ?_, ?_, hcancel⟩, .quiet (haside.writes_quiet rfl)
          ⟨nofun, nofun, rfl, .inl rfl⟩⟩
      · exact hmtx
      · intro u hu
        cases hu
        exact ⟨hpos, hroot⟩
      · intro u hu
        cases hu
        exact hknown
  · rw [if_neg hpos] at henter
    cases henter
    exact hleave

theorem claim_turn (h : Sound s) (at_ : s.threads[i]? = some ⟨.claim now t, .idle⟩) :
    Turn s i ⟨.claim now t, .idle⟩ (s.claim i now t).1 ⟨(s.claim i now t).2, .idle⟩ := by
  have haside : Aside (s.mgr.timers t) { s.mgr.timers t with mStatus := incallback } :=
    ⟨rfl, rfl, rfl, rfl⟩
  unfold Sys.claim TimerMgr.casStatus
  by_cases hzero : (s.mgr.timers t).mStatus = 0
  · simp only [if_pos hzero, if_true]
    exact ⟨h.setTimer at_ rfl rfl haside _ rfl (fun _ => id) fun _ => id,
      .claim hzero (haside.writes _)⟩
  · simp only [if_neg hzero, Bool.false_eq_true, if_false]
    refine ⟨⟨rfl, rfl, h.serves, .inl ⟨rfl, fun _ => rfl⟩, ?_, fun _ => .inl rfl, ?_, ?_, ?_⟩,
      .refuse hzero (.nothing rfl rfl)⟩
    · exact (h.lock i _ at_).mp rfl
    · exact fun u => h.front i ⟨.claim now t, .idle⟩ u at_
    · exact fun u => h.schedule i ⟨.claim now t, .idle⟩ u at_
    · exact fun u => h.cancel i ⟨.claim now t, .idle⟩ u at_

theorem pop_turn (h : Sound s) (at_ : s.threads[i]? = some ⟨.pop now t ok, .idle⟩)
    (hpop : s.popTop now t ok = some (w, pc')) :
    Turn s i ⟨.pop now t ok, .idle⟩ w ⟨pc', .idle⟩ := by
  obtain ⟨hpos, hroot⟩ := h.front i _ t at_ rfl
  have hknown : t ∈ s.handles := h.schedule i _ t at_ rfl
  obtain ⟨e, m, he, hm, hremoved, hx⟩ := pop_spec h.serves.heap hpos
  rw [hroot, Option.some.injEq] at he
  subst he
  have hstatus : m.status = s.mgr.status := hremoved.others.status (by rw [hx])
  have hmgr : m.mMgr = Function.update s.mgr.mMgr t none := by rw [hremoved.others.mMgr, hx]
  have hserves : Serves s m :=
    h.serves.of_owner hknown hremoved.heap hremoved.others.owner.1 hmgr (.inl rfl) hstatus
      fun u _ hu => ((hremoved.has u).mp hu).1
  simp only [Sys.popTop, hm, Option.map_some, Option.some.injEq, Prod.mk.injEq] at hpop
  obtain ⟨rfl, rfl⟩ := hpop
  refine ⟨⟨rfl, rfl, hserves, .inr (.inl rfl), ?_, fun _ => .inl rfl, ?_, ?_, ?_⟩,
    .pop ⟨hstatus, hmgr, (List.append_nil _).symm⟩⟩
  · cases ok <;> rfl
  · cases ok <;> exact nofun
  · cases ok <;> exact fun u => h.schedule i ⟨.pop now t _, .idle⟩ u at_
  · exact fun u => h.cancel i ⟨.pop now t ok, .idle⟩ u at_

theorem drop_turn (h : Sound s) (at_ : s.threads[i]? = some ⟨.settle now t ok, .idle⟩) :
    Turn s i ⟨.settle now t ok, .idle⟩ (s.drop now t).1 ⟨(s.drop now t).2, .idle⟩ := by
  have haside : Aside (s.mgr.timers t) { s.mgr.timers t with mCallback := none } :=
    ⟨rfl, rfl, rfl, rfl⟩
  exact ⟨h.setTimer at_ rfl rfl haside _ rfl nofun nofun, .quiet (haside.writes_quiet rfl)
    ⟨nofun, nofun, rfl, .inl rfl⟩⟩

theorem settle_turn (h : Sound s) (at_ : s.threads[i]? = some ⟨.settle now t ok, .idle⟩) :
    Turn s i ⟨.settle now t ok, .idle⟩ (s.settle now t ok).1 ⟨(s.settle now t ok).2, .idle⟩ := by
  have haside : Aside (s.mgr.timers t) { s.mgr.timers t with mStatus := 0 } :=
    ⟨rfl, rfl, rfl, rfl⟩
  unfold Sys.settle TimerMgr.casStatus
  split
  · rename_i hperiodic
    obtain ⟨rfl, -⟩ := hperiodic
    by_cases hbusy : (s.mgr.timers t).mStatus = incallback
    · simp only [if_pos hbusy, if_true]
      have hwrites : Writes s { s with mgr := s.mgr.setTimer t _ } _ _ [] :=
        ⟨setTimer_status s.mgr t _, haside.mMgr, (List.append_nil _).symm⟩
      exact ⟨h.setTimer at_ rfl rfl haside _ rfl nofun fun _ => id, .rearm hbusy hwrites⟩
    · simp only [if_neg hbusy, Bool.false_eq_true, if_false]
      exact drop_turn h at_
  · exact drop_turn h at_

theorem insert_turn (h : Sound s) (at_ : s.threads[i]? = some ⟨.insert now t, .idle⟩)
    {m : TimerMgr} (hm : s.mgr.rearm now t = some m) :
    Turn s i ⟨.insert now t, .idle⟩ { s with mgr := m } ⟨.loop now, .idle⟩ := by
  have hknown : t ∈ s.handles := h.schedule i _ t at_ rfl
  obtain ⟨m', idx, hm', hinserted, hx⟩ :=
    rearm_spec h.serves.heap (h.serves.owned t hknown) now
  obtain rfl := Option.some.inj (hm.symm.trans hm')
  have hstatus : m.status = s.mgr.status := hinserted.others.status (by rw [hx])
  have hmgr : m.mMgr = Function.update s.mgr.mMgr t (some s.mgr.self) := by
    rw [hinserted.others.mMgr, hx]
  have hserves : Serves s m :=
    h.serves.of_owner hknown hinserted.heap hinserted.others.owner.1 hmgr (.inr rfl) hstatus
      fun u hut hu => ((hinserted.has u).mp hu).resolve_right hut
  refine ⟨⟨rfl, rfl, hserves, .inr (.inl rfl), ?_, fun _ => .inl rfl, nofun, nofun, ?_⟩,
    .insert ⟨hstatus, hmgr, (List.append_nil _).symm⟩⟩
  · exact (h.lock i _ at_).mp rfl
  · exact fun u => h.cancel i ⟨.insert now t, .idle⟩ u at_

theorem scheduleStep_turn {pc : SchedulePc} (h : Sound s) (at_ : s.threads[i]? = some ⟨pc, .idle⟩)
    (hstep : scheduleStep s i pc = some (w, pc')) : Turn s i ⟨pc, .idle⟩ w ⟨pc', .idle⟩ := by
  have hkeep (p : SchedulePc) (holding : p.holding = pc.holding) (timer : p.timer = pc.timer)
      (front : p.front = none) (pcs : Quieter ⟨pc, .idle⟩ ⟨p, .idle⟩) (free : pc.holding = false) :
      Turn s i ⟨pc, .idle⟩ s ⟨p, .idle⟩ := by
    refine ⟨⟨rfl, rfl, h.serves, .inl ⟨rfl, fun _ => rfl⟩, ?_, ?_, ?_, ?_, ?_⟩,
      .quiet (.nothing rfl rfl) pcs⟩
    · simp [holding, free]
    · simp [holding, free]
    · simp [front]
    · exact fun u hu => h.schedule i ⟨pc, .idle⟩ u at_ (timer ▸ hu)
    · exact fun u => h.cancel i ⟨pc, .idle⟩ u at_
  cases pc with
  | idle => cases hstep
  | lock now =>
    obtain ⟨w', hw, he⟩ := Option.map_eq_some_iff.mp hstep
    cases he
    exact lock_turn h at_ hw rfl rfl rfl ⟨nofun, nofun, rfl, .inl rfl⟩
  | loop now => exact enter_turn h at_ hstep
  | claim now t =>
    cases hstep
    exact claim_turn h at_
  | pop now t ok => exact pop_turn h at_ hstep
  | call now t =>
    cases hstep
    by_cases hcb : (s.mgr.timers t).mCallback.isSome
    · rw [if_pos hcb]
      exact hkeep _ rfl rfl rfl ⟨fun _ => id, nofun, rfl, .inl rfl⟩ rfl
    · rw [if_neg hcb]
      exact hkeep _ rfl rfl rfl ⟨nofun, nofun, rfl, .inl rfl⟩ rfl
  | running now t =>
    cases hstep
    exact hkeep _ rfl rfl rfl ⟨fun _ => id, nofun, rfl, .inl rfl⟩ rfl
  | relock now t ok =>
    obtain ⟨w', hw, he⟩ := Option.map_eq_some_iff.mp hstep
    cases he
    refine lock_turn h at_ hw rfl rfl rfl ⟨?_, nofun, rfl, .inl rfl⟩
    cases ok <;> exact fun _ => id
  | settle now t ok =>
    have hsettle : s.settle now t ok = (w, pc') := Option.some.inj hstep
    have hturn := settle_turn h at_
    rw [hsettle] at hturn
    exact hturn
  | insert now t =>
    obtain ⟨m, hm, he⟩ := Option.map_eq_some_iff.mp hstep
    cases he
    exact insert_turn h at_ hm
  | thrown t => cases hstep

end Schedule

section Cancel

variable {s w : Sys} {i : ThreadId} {t : Ptr} {p : SchedulePc} {pc pc' : CancelPc}

theorem Sound.besides (h : Sound s) (at_ : s.threads[i]? = some ⟨p, pc⟩) {m : TimerMgr}
    (log : List Event) (serves : Serves s m) (slots : SameSlots s.mgr m)
    (timer : ∀ u, pc'.timer = some u → pc.timer = some u) :
    Works s i ⟨p, pc⟩ { s with mgr := m, log } ⟨p, pc'⟩ where
  threads := rfl
  handles := rfl
  serves := serves
  slots := .inl slots
  mtx := by
    have hlock := h.lock i _ at_
    cases hholds : p.holding with
    | true => simpa [hholds] using hlock
    | false => simp
  free := .inl
  front := by
    intro u hu
    rw [slots.1, slots.2]
    exact h.front i ⟨p, pc⟩ u at_ hu
  schedule := fun u => h.schedule i ⟨p, pc⟩ u at_
  cancel := fun u hu => h.cancel i ⟨p, pc⟩ u at_ (timer u hu)

theorem Sound.exchange (h : Sound s) (at_ : s.threads[i]? = some ⟨p, pc⟩) (ht : pc.timer = some t)
    (setv : UInt32) (pc' : CancelPc) (timer : ∀ u, pc'.timer = some u → pc.timer = some u) :
    Works s i ⟨p, pc⟩
      { s with mgr := s.mgr.setTimer t { s.mgr.timers t with mStatus := setv } } ⟨p, pc'⟩ ∧
    Writes s { s with mgr := s.mgr.setTimer t { s.mgr.timers t with mStatus := setv } }
      (Function.update s.mgr.status t setv) s.mgr.mMgr [] := by
  have haside : Aside (s.mgr.timers t) { s.mgr.timers t with mStatus := setv } :=
    ⟨rfl, rfl, rfl, rfl⟩
  have hknown : t ∈ s.handles := h.cancel i _ t at_ ht
  exact ⟨h.besides at_ _ (h.serves.setTimer hknown haside) (.setTimer _ _ _) timer,
    setTimer_status s.mgr t _, haside.mMgr, (List.append_nil _).symm⟩

theorem remove_turn {m : MgrPtr} (h : Sound s) (at_ : s.threads[i]? = some ⟨p, .remove t m⟩)
    (free : s.mtx = none) {r : TimerMgr × Bool} (hr : s.mgr.remove t = some r) :
    Turn s i ⟨p, .remove t m⟩ ({ s with mgr := r.1 }.note (.returned i t .cancelOk))
      ⟨p, .idle⟩ := by
  have hknown : t ∈ s.handles := h.cancel i _ t at_ rfl
  have hserves : Serves s r.1 ∧ r.1.status = s.mgr.status ∧ r.1.mMgr = s.mgr.mMgr := by
    by_cases hhas : s.mgr.Has t
    · obtain ⟨m', hm', hremoved, hx⟩ := remove_spec h.serves.heap hhas
      obtain rfl := Option.some.inj (hr.symm.trans hm')
      have hstatus : m'.status = s.mgr.status := hremoved.others.status (by rw [hx])
      have hmgr : m'.mMgr = Function.update s.mgr.mMgr t (s.mgr.mMgr t) := by
        rw [hremoved.others.mMgr, hx]
        rfl
      refine ⟨?_, hstatus, hmgr.trans (Function.update_eq_self t s.mgr.mMgr)⟩
      exact h.serves.of_owner hknown hremoved.heap hremoved.others.owner.1 hmgr
        (h.serves.owned t hknown) hstatus fun u _ hu => ((hremoved.has u).mp hu).1
    · rw [remove_absent h.serves.heap hhas, Option.some.injEq] at hr
      subst hr
      exact ⟨h.serves, rfl, rfl⟩
  obtain ⟨hserves, hstatus, hmgr⟩ := hserves
  have hholds : p.holding = false := by
    have hlock := h.lock i _ at_
    rw [free] at hlock
    cases hp : p.holding with
    | true => cases hlock.mp hp
    | false => rfl
  refine ⟨⟨rfl, rfl, hserves, .inr (.inr free), ?_, .inl, ?_, ?_, nofun⟩,
    .removed ⟨hstatus, hmgr, rfl⟩⟩
  · simp [Sys.note, hholds, free]
  · intro u hu
    rw [SchedulePc.holding_of_front hu] at hholds
    cases hholds
  · exact fun u => h.schedule i ⟨p, .remove t m⟩ u at_

theorem cancelStep_turn (h : Sound s) (at_ : s.threads[i]? = some ⟨p, pc⟩)
    (hstep : cancelStep s i pc = some (w, pc')) : Turn s i ⟨p, pc⟩ w ⟨p, pc'⟩ := by
  have hslots : SameSlots s.mgr s.mgr := ⟨rfl, fun _ => rfl⟩
  have hkeep (q : CancelPc) (log : List Event) (timer : ∀ u, q.timer = some u → pc.timer = some u) :
      Works s i ⟨p, pc⟩ { s with log } ⟨p, q⟩ :=
    h.besides at_ log h.serves hslots timer
  cases pc with
  | idle => cases hstep
  | cas1 t =>
    simp only [cancelStep, casStatus, Option.some.injEq, Prod.mk.injEq] at hstep
    by_cases hzero : (s.mgr.timers t).mStatus = 0
    · simp only [if_pos hzero, if_true] at hstep
      obtain ⟨rfl, rfl⟩ := hstep
      obtain ⟨hworks, hwrites⟩ := h.exchange at_ rfl canceled (.load t true) fun _ => id
      exact ⟨hworks, .win hzero hwrites⟩
    · simp only [if_neg hzero, Bool.false_eq_true, if_false] at hstep
      obtain ⟨rfl, rfl⟩ := hstep
      exact ⟨hkeep _ _ fun _ => id, .quiet (.nothing rfl rfl)
        ⟨fun _ => id, fun _ => id, rfl, .inr ⟨t, .inr rfl⟩⟩⟩
  | cas2 t =>
    simp only [cancelStep, casStatus, Option.some.injEq] at hstep
    by_cases hbusy : (s.mgr.timers t).mStatus = incallback
    · simp only [if_pos hbusy, if_true, Prod.mk.injEq] at hstep
      obtain ⟨rfl, rfl⟩ := hstep
      obtain ⟨hworks, hwrites⟩ :=
        h.exchange at_ rfl (incallback ||| canceled) (.load t false) fun _ => id
      exact ⟨hworks, .join hbusy hwrites⟩
    · simp only [if_neg hbusy, Bool.false_eq_true, if_false, Sys.finish, Prod.mk.injEq] at hstep
      obtain ⟨rfl, rfl⟩ := hstep
      exact ⟨hkeep _ _ nofun, .fail hbusy ⟨rfl, rfl, rfl⟩⟩
  | load t first =>
    cases hstep
    refine ⟨hkeep _ _ ?_, .load (.nothing rfl rfl)⟩
    split <;> exact fun _ => id
  | readTid t =>
    cases hstep
    refine ⟨hkeep _ _ nofun, .doing _ ?_ ?_ ⟨rfl, rfl, rfl⟩⟩
    · split <;> exact nofun
    · split <;> exact nofun
  | readMgr t =>
    simp only [cancelStep] at hstep
    cases howner : s.mgr.mMgr t with
    | some m =>
      simp only [howner, Option.some.injEq, Prod.mk.injEq] at hstep
      obtain ⟨rfl, rfl⟩ := hstep
      exact ⟨hkeep _ _ fun _ => id, .through m howner (.nothing rfl rfl)⟩
    | none =>
      simp only [howner, Option.some.injEq, Prod.mk.injEq] at hstep
      obtain ⟨rfl, rfl⟩ := hstep
      exact ⟨hkeep _ _ fun _ => id, .crash howner (.nothing rfl rfl)⟩
  | remove t m =>
    simp only [cancelStep] at hstep
    split_ifs at hstep with hfree
    obtain ⟨r, hr, he⟩ := Option.map_eq_some_iff.mp hstep
    cases he
    exact remove_turn h at_ hfree.1 hr
  | crashed t => cases hstep

end Cancel

/-! ## Steps -/

inductive Stepped (s : Sys) : Label → Sys → Prop where
  | added {a : Label} {t : Ptr} {w : Sys} (new : t ∉ s.handles)
      (handles : w.handles = t :: s.handles) (threads : w.threads = s.threads)
      (writes : Writes s w s.mgr.status (Function.update s.mgr.mMgr t (some s.mgr.self)) []) :
      Stepped s a w
  | called {a : Label} {i : ThreadId} {th th' : Thread} (at_ : s.threads[i]? = some th)
      (pcs : Quieter th th') : Stepped s a (Sys.resume i (s, th'))
  | moved {i : ThreadId} {th th' : Thread} {w : Sys} (at_ : s.threads[i]? = some th)
      (threads : w.threads = s.threads) (handles : w.handles = s.handles)
      (move : Moved s i th w th') : Stepped s (.advance i) (Sys.resume i (w, th'))

/-- The new timer is the only one to come into the heap. -/
theorem addTimer_inserted {s w : Sys} (heap : Heap s.mgr)
    (known : ∀ t, s.mgr.Has t → t ∈ s.handles) {t : Ptr} {now timeout : UInt64} {once : Bool}
    {cb : Callback} (hadd : s.addTimer t now timeout once cb = some w) :
    s.mtx = none ∧ t ∉ s.handles ∧ ∃ m idx,
      w = { s with mgr := m, handles := t :: s.handles } ∧
      Inserted (s.mgr.setTimer t (.new (now + timeout) timeout once cb)) m t ∧
      m.timers t = { Timer.new (now + timeout) timeout once cb with
        mMgr := some s.mgr.self
        mIndex := idx
        selfPtr := some t } := by
  unfold Sys.addTimer at hadd
  split_ifs at hadd with hfree
  obtain ⟨hunlocked, hnew⟩ := hfree
  have hout : ¬ s.mgr.Has t := fun hh => hnew (known t hh)
  -- the new record, in a heap that does not know it yet
  let x : Timer := .new (now + timeout) timeout once cb
  let m₀ : TimerMgr := s.mgr.setTimer t x
  have hx₀ : m₀.timers t = x := setTimer_self _ _ _
  have hheap₀ : Heap m₀ := heap.setTimer_out hout fun _ => rfl
  have hout₀ : ¬ m₀.Has t := fun hh => hout ((setTimer_has _ _ _ t).mp hh)
  obtain ⟨m, idx, hm, hinserted, hx⟩ := newInsert_spec hheap₀ (.inl (by rw [hx₀]; rfl)) hout₀
  obtain ⟨r, hr, rfl⟩ := Option.map_eq_some_iff.mp hadd
  obtain rfl := Option.some.inj (hm.symm.trans hr)
  exact ⟨hunlocked, hnew, m, idx, rfl, hinserted, by rw [hx, hx₀]; rfl⟩

theorem addTimer_spec {s w : Sys} (h : Sound s) {t : Ptr} {now timeout : UInt64} {once : Bool}
    {cb : Callback} (hadd : s.addTimer t now timeout once cb = some w) :
    s.mtx = none ∧ t ∉ s.handles ∧ ∃ m idx,
      w = { s with mgr := m, handles := t :: s.handles } ∧
      Inserted (s.mgr.setTimer t (.new (now + timeout) timeout once cb)) m t ∧
      m.timers t = { Timer.new (now + timeout) timeout once cb with
        mMgr := some s.mgr.self
        mIndex := idx
        selfPtr := some t } :=
  addTimer_inserted h.serves.heap h.serves.known hadd

theorem addTimer_stepped {s w : Sys} (h : Sound s) {t : Ptr} {now timeout : UInt64} {once : Bool}
    {cb : Callback} (hadd : s.addTimer t now timeout once cb = some w) :
    Sound w ∧ Stepped s (.addTimer t now timeout once cb) w := by
  obtain ⟨hunlocked, hnew, m, idx, rfl, hinserted, hx⟩ := addTimer_spec h hadd
  let x : Timer := .new (now + timeout) timeout once cb
  have hstatus : m.status = s.mgr.status := by
    have hsame : m.status = (s.mgr.setTimer t x).status :=
      hinserted.others.status (by rw [hx, setTimer_self])
    have hzero : x.mStatus = s.mgr.status t := (h.serves.fresh t hnew).symm
    rw [hsame, setTimer_status, hzero, Function.update_eq_self]
  have hmgr : m.mMgr = Function.update s.mgr.mMgr t (some s.mgr.self) := by
    rw [hinserted.others.mMgr, setTimer_mMgr, Function.update_idem, hx]
  have howner : m.self = s.mgr.self := hinserted.others.owner.1
  refine ⟨⟨⟨hinserted.heap, fun u hu => ?_, fun u hu => ?_, fun u hu => ?_⟩, h.lock,
    fun i th u hth hu => ?_, fun i th u hth hu => ?_, fun i th u hth hu => ?_⟩,
    .added hnew rfl rfl ⟨hstatus, hmgr, (List.append_nil _).symm⟩⟩
  · show m.mMgr u = none ∨ m.mMgr u = some m.self
    rw [hmgr, howner]
    rcases List.mem_cons.mp hu with rfl | hu
    · simp
    · have hut : u ≠ t := fun hut => hnew (hut ▸ hu)
      simpa [hut] using h.serves.owned u hu
  · rcases (hinserted.has u).mp hu with hu | rfl
    · exact List.mem_cons_of_mem t (h.serves.known u ((setTimer_has _ _ _ u).mp hu))
    · exact List.mem_cons_self
  · show m.status u = 0
    rw [hstatus]
    exact h.serves.fresh u fun hm => hu (List.mem_cons_of_mem t hm)
  · -- nobody is at the top of the heap while the mutex is free
    have hholds := (h.lock i th hth).mp (SchedulePc.holding_of_front hu)
    rw [hunlocked] at hholds
    cases hholds
  · exact List.mem_cons_of_mem t (h.schedule i th u hth hu)
  · exact List.mem_cons_of_mem t (h.cancel i th u hth hu)

theorem called_sound {s : Sys} (h : Sound s) {i : ThreadId} {th th' : Thread}
    (at_ : s.threads[i]? = some th) (holds : th'.schedule.holding = th.schedule.holding)
    (front : th'.schedule.front = none)
    (schedule : ∀ t, th'.schedule.timer = some t → th.schedule.timer = some t)
    (cancel : ∀ t, th'.cancel.timer = some t → t ∈ s.handles) : Sound (Sys.resume i (s, th')) := by
  refine h.resume at_ ⟨rfl, rfl, h.serves, .inl ⟨rfl, fun _ => rfl⟩, ?_, ?_, ?_, ?_, cancel⟩
  · have hlock := h.lock i th at_
    cases hth : th.schedule.holding with
    | true => simpa [holds, hth] using hlock
    | false => simp [holds, hth]
  · exact fun hh => .inl (holds ▸ hh)
  · simp [front]
  · exact fun t ht => h.schedule i th t at_ (schedule t ht)

theorem threadStep_turn {s w : Sys} {i : ThreadId} {th th' : Thread} (h : Sound s)
    (at_ : s.threads[i]? = some th) (hturn : threadStep s i th = some (w, th')) :
    Turn s i th w th' := by
  obtain ⟨p, pc⟩ := th
  unfold threadStep at hturn
  split_ifs at hturn with hidle
  · obtain ⟨⟨w', p'⟩, hp, he⟩ := Option.map_eq_some_iff.mp hturn
    obtain rfl : pc = .idle := hidle
    cases he
    exact scheduleStep_turn h at_ hp
  · obtain ⟨⟨w', pc'⟩, hpc, he⟩ := Option.map_eq_some_iff.mp hturn
    cases he
    exact cancelStep_turn h at_ hpc

theorem advance_eq {s s' : Sys} {i : ThreadId} (hstep : step s (.advance i) = some s') :
    ∃ th w th', s.threads[i]? = some th ∧ threadStep s i th = some (w, th') ∧
      s' = Sys.resume i (w, th') := by
  obtain ⟨th, hth, hstep⟩ := Option.bind_eq_some_iff.mp hstep
  obtain ⟨⟨w, th'⟩, hturn, hw⟩ := Option.bind_eq_some_iff.mp hstep
  exact ⟨th, w, th', hth, hturn, (Option.some.inj hw).symm⟩

theorem step_stepped {s s' : Sys} (h : Sound s) {a : Label} (hstep : step s a = some s') :
    Sound s' ∧ Stepped s a s' := by
  cases a with
  | addTimer t now timeout once cb => exact addTimer_stepped h hstep
  | schedule i now =>
    simp only [step] at hstep
    split_ifs at hstep with hidle
    obtain rfl := Option.some.inj hstep
    exact ⟨called_sound h hidle rfl rfl nofun nofun,
      .called hidle ⟨nofun, nofun, rfl, .inl rfl⟩⟩
  | cancel i t =>
    obtain ⟨th, hth, hstep⟩ := Option.bind_eq_some_iff.mp hstep
    split_ifs at hstep with hmay
    obtain ⟨hhandle, hmay, hidle⟩ := hmay
    obtain rfl := Option.some.inj hstep
    refine ⟨called_sound h hth rfl ?_ (fun _ => id) ?_,
      .called hth ⟨fun _ => id, fun _ => id, rfl, .inr ⟨t, .inl rfl⟩⟩⟩
    · cases hp : th.schedule <;> rw [hp] at hmay <;> first | rfl | cases hmay
    · intro u hu
      cases hu
      exact hhandle
  | advance i =>
    obtain ⟨th, w, th', hth, hturn, rfl⟩ := advance_eq hstep
    obtain ⟨hworks, hmoved⟩ := threadStep_turn h hth hturn
    exact ⟨h.resume hth hworks, .moved hth hworks.threads hworks.handles hmoved⟩

theorem Sound.init (self : MgrPtr) (policy : Policy) (n : ℕ) : Sound (Sys.init self policy n) := by
  have hthread {i : ThreadId} {th : Thread} (hth : (Sys.init self policy n).threads[i]? = some th) :
      th = ⟨.idle, .idle⟩ :=
    List.eq_of_mem_replicate (List.mem_of_getElem? hth)
  have hheap : Heap (Sys.init self policy n).mgr :=
    (fresh_new self policy _ fun _ => ⟨rfl, rfl⟩).heap
  refine ⟨⟨hheap, nofun, fun t ht => ?_, fun _ _ => rfl⟩, fun i th hth => ?_,
    fun i th t hth ht => ?_, fun i th t hth ht => ?_, fun i th t hth ht => ?_⟩
  · obtain ⟨k, hk, hk', -⟩ := ht
    have hsize : (Sys.init self policy n).mgr.elementsSize = 0 := rfl
    omega
  · rw [hthread hth]
    exact ⟨nofun, nofun⟩
  all_goals
    rw [hthread hth] at ht
    cases ht

theorem sound_runs {self : MgrPtr} {policy : Policy} {n : ℕ} {s : Sys} {ok : Sys → Label → Prop}
    (h : Machine.Runs step ok (Sys.init self policy n) s) : Sound s :=
  h.invariant (.init self policy n) fun _ _ _ _ hu _ hstep => (step_stepped hu hstep).1

end Hwnet.TimerMgr
