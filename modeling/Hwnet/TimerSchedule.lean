import Hwnet.TimerHeap

set_option autoImplicit false

/-!
# One call of Schedule

The pieces of `TimerMgr::Schedule` between its atomic operations, and the call as a whole when no
other thread and no callback touches the manager.
-/
namespace Hwnet.TimerMgr

open Timer

/-! ## The pieces of Schedule -/

def casStatus (s : TimerMgr) (t : Ptr) (expected setv : UInt32) : TimerMgr × Bool :=
  if (s.timers t).mStatus = expected then
    (s.setTimer t { s.timers t with mStatus := setv }, true)
  else (s, false)

def setTid (s : TimerMgr) (t : Ptr) (tid : Option ThreadId) : TimerMgr :=
  s.setTimer t { s.timers t with tid }

def nextExpiry (policy : Policy) (now : UInt64) (t : Timer) : UInt64 :=
  match policy with
  | .normal => now + t.mTimeout
  | .compensate => t.mExpiredTime + t.mTimeout

def rearm (s : TimerMgr) (now : UInt64) (t : Ptr) : Option TimerMgr := do
  let (s, _) ← (s.setExpired t (nextExpiry s.policy now (s.timers t))).insert t
  return s.setTid t none

def release (s : TimerMgr) (t : Ptr) : TimerMgr :=
  s.setTimer t { s.timers t with mCallback := none }

/-- The section after a callback; `ok` tells whether there was one. -/
def settle (s : TimerMgr) (now : UInt64) (t : Ptr) (ok : Bool) : Option TimerMgr :=
  if ok ∧ (s.timers t).mOnce = false then
    let (s, again) := s.casStatus t incallback 0
    if again then s.rearm now t else some (s.release t)
  else some (s.release t)

/-! ## A call without interference -/

abbrev Fired := Ptr × UInt64

/-- An empty `std::function` throws. -/
def call (s : TimerMgr) (t : Ptr) (ok : Bool) (expiredTime : UInt64) : Option (List Fired) :=
  if ok then
    if (s.timers t).mCallback.isSome then some [(t, expiredTime)] else none
  else some []

/-- One pass of the loop for the timer at the top. -/
def pass (s : TimerMgr) (tid : ThreadId) (now : UInt64) (t : Ptr) :
    Option (TimerMgr × List Fired) := do
  let expiredTime := (s.timers t).mExpiredTime
  let (s, ok) := (s.setTid t (some tid)).casStatus t 0 incallback
  let s ← s.pop
  let fired ← s.call t ok expiredTime
  let s ← s.settle now t ok
  return (s, fired)

def scheduleLoop (tid : ThreadId) (now : UInt64) : ℕ → TimerMgr → Option (TimerMgr × List Fired)
  | 0, _ => none
  | fuel + 1, s =>
    if 0 < s.elementsSize then do
      let t ← s.top
      if now < (s.timers t).mExpiredTime then return (s, [])
      let (s, fired) ← s.pass tid now t
      let (s, rest) ← scheduleLoop tid now fuel s
      return (s, fired ++ rest)
    else return (s, [])

/-! ## What it should do -/

def fires (policy : Policy) (now : UInt64) (t : Timer) : ℕ :=
  if now < t.mExpiredTime then 0
  else if t.mOnce then 1
  else
    match policy with
    | .normal => 1
    | .compensate => (now.toNat - t.mExpiredTime.toNat) / t.mTimeout.toNat + 1

def finalExpiry (policy : Policy) (now : UInt64) (t : Timer) : ℕ :=
  match policy with
  | .normal => now.toNat + t.mTimeout.toNat
  | .compensate =>
    t.mExpiredTime.toNat +
      ((now.toNat - t.mExpiredTime.toNat) / t.mTimeout.toNat + 1) * t.mTimeout.toNat

/-- An uncancelled timer with a positive timeout whose expiry additions do not wrap. -/
structure Fit (policy : Policy) (now : UInt64) (t : Timer) : Prop where
  status : t.mStatus = 0
  timeout : 0 < t.mTimeout
  callback : t.mCallback.isSome = true
  noWrap : t.mOnce = false → t.mExpiredTime ≤ now → finalExpiry policy now t < 2 ^ 64

structure Schedulable (s : TimerMgr) (now : UInt64) : Prop where
  heap : Heap s
  fit : ∀ t, s.Has t → Fit s.policy now (s.timers t)

/-! ## The timers of a heap as a list -/

def members (s : TimerMgr) : List Ptr :=
  (List.range s.elementsSize).filterMap fun i => s.elem (i + 1)

theorem mem_members (s : TimerMgr) (t : Ptr) : t ∈ s.members ↔ s.Has t := by
  simp only [members, List.mem_filterMap, List.mem_range]
  constructor
  · rintro ⟨i, hi, ht⟩
    exact ⟨i + 1, by omega, hi, ht⟩
  · rintro ⟨i, hi, hi', ht⟩
    exact ⟨i - 1, by omega, by rw [Nat.sub_add_cancel hi]; exact ht⟩

theorem nodup_members {s : TimerMgr} (h : Slots s) : s.members.Nodup := by
  refine List.pairwise_filterMap.mpr (List.nodup_range.imp_of_mem fun {i j} hi hj hne => ?_)
  intro t ht u hu htu
  rw [List.mem_range] at hi hj
  have := h.injective (by omega) (by omega) (by omega) (by omega) ht (htu ▸ hu)
  omega

/-! ## One pass -/

/-- What a pass for `t` leaves: a one-shot timer is out of the heap, a periodic one is in it with
its next expiry. -/
structure Passed (s s' : TimerMgr) (now : UInt64) (t : Ptr) : Prop where
  heap : Heap s'
  has : ∀ u, u ≠ t → (s'.Has u ↔ s.Has u)
  others : Others s s' t
  once : (s.timers t).mOnce = true → ¬ s'.Has t
  again : (s.timers t).mOnce = false → s'.Has t ∧ ∃ idx, s'.timers t = { s.timers t with
    mExpiredTime := nextExpiry s.policy now (s.timers t)
    mIndex := idx
    tid := none }

theorem casStatus_eq {s : TimerMgr} {t : Ptr} {expected : UInt32} (setv : UInt32)
    (h : (s.timers t).mStatus = expected) : s.casStatus t expected setv =
      (s.setTimer t { s.timers t with mStatus := setv }, true) :=
  if_pos h

theorem rearm_spec {s : TimerMgr} (h : Heap s) {t : Ptr}
    (free : (s.timers t).mMgr = none ∨ (s.timers t).mMgr = some s.self) (now : UInt64) :
    ∃ s' idx, s.rearm now t = some s' ∧ Inserted s s' t ∧ s'.timers t = { s.timers t with
      mExpiredTime := nextExpiry s.policy now (s.timers t)
      mMgr := some s.self
      mIndex := idx
      tid := none
      selfPtr := some t } := by
  obtain ⟨s₁, idx, hs₁, hins, hx⟩ := insert_spec h free (nextExpiry s.policy now (s.timers t))
  refine ⟨s₁.setTid t none, idx, ?_, ⟨hins.heap.setTimer rfl rfl rfl rfl, fun u => ?_, ?_⟩, ?_⟩
  · simp only [rearm, hs₁, Option.bind_eq_bind, Option.bind_some]
    rfl
  · exact (setTimer_has _ _ _ u).trans (hins.has u)
  · refine hins.others.trans (setTimer_others _ _ _) fun u hu hh => ?_
    exact ((hins.has u).mp hh).resolve_right hu
  · rw [setTid, setTimer_self, hx]

/-- A pass for a timer that nobody has cancelled calls it. -/
theorem pass_spec {s : TimerMgr} (h : Heap s) {t : Ptr} (ht : s.elem 1 = some t)
    (pos : 0 < s.elementsSize) (status : (s.timers t).mStatus = 0)
    (callback : (s.timers t).mCallback.isSome = true) (tid : ThreadId) (now : UInt64) :
    ∃ s', s.pass tid now t = some (s', [(t, (s.timers t).mExpiredTime)]) ∧ Passed s s' now t := by
  have hhas : s.Has t := ⟨1, Nat.le_refl 1, pos, ht⟩
  obtain ⟨-, -, -, hmgr⟩ := h.of_has hhas
  have hself := h.owned t hhas
  -- claimed: the status is `incallback`
  let s₁ := (s.setTid t (some tid)).setTimer t { (s.setTid t (some tid)).timers t with
    mStatus := incallback }
  have hx₁ : s₁.timers t = { s.timers t with mStatus := incallback, tid := some tid } := by
    rw [setTimer_self, setTid, setTimer_self]
  have h₀ : Heap (s.setTid t (some tid)) := h.setTimer rfl rfl rfl rfl
  have h₁ : Heap s₁ := h₀.setTimer rfl rfl rfl rfl
  have hhas₁ (u : Ptr) : s₁.Has u ↔ s.Has u := (setTimer_has _ _ _ u).trans (setTimer_has _ _ _ u)
  have hothers₁ : Others s s₁ t :=
    (setTimer_others _ _ _).trans (setTimer_others _ _ _) fun u _ => (setTimer_has _ _ _ u).mp
  have hcas : (s.setTid t (some tid)).casStatus t 0 incallback = (s₁, true) := by
    refine casStatus_eq incallback ?_
    rw [setTid, setTimer_self]
    exact status
  -- popped
  obtain ⟨e, s₂, he, hpop, hrem, hx₂⟩ := pop_spec h₁ pos
  have het : e = t := by
    have hroot : s₁.elem 1 = some t := ht
    rw [hroot, Option.some.injEq] at he
    exact he.symm
  subst het
  rw [hx₁] at hx₂
  have hothers₂ : Others s s₂ e :=
    hothers₁.trans hrem.others fun u _ => (hhas₁ u).mp
  have hhas₂ (u : Ptr) (hu : u ≠ e) : s₂.Has u ↔ s.Has u := by
    rw [hrem.has, hhas₁]
    exact and_iff_left hu
  have hout₂ : ¬ s₂.Has e := fun hh => ((hrem.has e).mp hh).2 rfl
  have hcall :
      s₂.call e true (s.timers e).mExpiredTime = some [(e, (s.timers e).mExpiredTime)] := by
    have hcb : (s₂.timers e).mCallback.isSome = true := by rw [hx₂]; exact callback
    rw [call, if_pos rfl, if_pos hcb]
  have honce₂ : (s₂.timers e).mOnce = (s.timers e).mOnce := by rw [hx₂]
  have hpass {s' : TimerMgr} (hs' : s₂.settle now e true = some s') :
      s.pass tid now e = some (s', [(e, (s.timers e).mExpiredTime)]) := by
    simp only [pass, hcas, hpop, hcall, hs', Option.bind_eq_bind, Option.bind_some]
    rfl
  cases honce : (s.timers e).mOnce with
  | true =>
    refine ⟨s₂.release e, hpass ?_, hrem.heap.setTimer rfl rfl rfl rfl, fun u hu => ?_, ?_,
      fun _ => ?_, fun hf => ?_⟩
    · rw [settle, if_neg]
      rw [honce₂, honce]
      exact fun hh => nomatch hh.2
    · exact (setTimer_has _ _ _ u).trans (hhas₂ u hu)
    · exact hothers₂.trans (setTimer_others _ _ _) fun u hu => (hhas₂ u hu).mp
    · exact fun hh => hout₂ ((setTimer_has _ _ _ e).mp hh)
    · rw [honce] at hf; cases hf
  | false =>
    let s₃ := s₂.setTimer e { s₂.timers e with mStatus := 0 }
    have hx₃ : s₃.timers e = { s₂.timers e with mStatus := 0 } := setTimer_self _ _ _
    have h₃ : Heap s₃ := hrem.heap.setTimer rfl rfl rfl rfl
    have hfree : (s₃.timers e).mMgr = none := by rw [hx₃, hx₂]
    obtain ⟨s', idx, hs', hins, hx'⟩ := rearm_spec h₃ (.inl hfree) now
    have hpol : s₃.policy = s.policy := hothers₂.owner.2
    have hsettle : s₂.settle now e true = some s' := by
      rw [settle, if_pos ⟨rfl, honce₂.trans honce⟩, casStatus_eq 0 (by rw [hx₂])]
      exact hs'
    refine ⟨s', hpass hsettle, hins.heap, fun u hu => ?_, ?_, fun hf => ?_, fun _ => ⟨?_, idx, ?_⟩⟩
    · rw [hins.has, or_iff_left hu]
      exact (setTimer_has _ _ _ u).trans (hhas₂ u hu)
    · refine (hothers₂.trans (setTimer_others _ _ _) fun u hu => (hhas₂ u hu).mp).trans hins.others
        fun u hu hh => ?_
      exact (hhas₂ u hu).mp ((setTimer_has _ _ _ u).mp hh)
    · rw [honce] at hf; cases hf
    · exact (hins.has e).mpr (.inr rfl)
    · rw [hx', hx₃, hx₂, hpol]
      have howner : s₃.self = s.self := hothers₂.owner.1
      simp only [nextExpiry, howner, ← hmgr, ← hself, ← status]

/-! ## Arming again -/

/-- The arithmetic of a periodic timer that is due: the expiry grows, one callback less is to come,
and what the call is to end with stays the same. -/
theorem Fit.next {policy : Policy} {now : UInt64} {x : Timer} (h : Fit policy now x)
    (periodic : x.mOnce = false) (due : x.mExpiredTime ≤ now) (x' : Timer)
    (same : x' = { x with
      mExpiredTime := nextExpiry policy now x
      mIndex := x'.mIndex
      tid := x'.tid }) :
    Fit policy now x' ∧ fires policy now x = fires policy now x' + 1 ∧
      x.mExpiredTime ≤ x'.mExpiredTime ∧
      (x'.mExpiredTime ≤ now → finalExpiry policy now x' = finalExpiry policy now x) ∧
      (now < x'.mExpiredTime → x'.mExpiredTime.toNat = finalExpiry policy now x) := by
  have hwrap := h.noWrap periodic due
  have hpos := UInt64.lt_iff_toNat_lt.mp h.timeout
  rw [UInt64.le_iff_toNat_le] at due
  rw [UInt64.toNat_zero] at hpos
  have hexp : x'.mExpiredTime = nextExpiry policy now x := by rw [same]
  have htime : x'.mTimeout = x.mTimeout := by rw [same]
  have honce : x'.mOnce = false := by rw [same]; exact periodic
  have hfit (hw : x'.mExpiredTime ≤ now → finalExpiry policy now x' < 2 ^ 64) : Fit policy now x' :=
    ⟨by rw [same]; exact h.status, by rw [htime]; exact h.timeout, by rw [same]; exact h.callback,
      fun _ => hw⟩
  have hnow : ¬ now < x.mExpiredTime := by rw [UInt64.lt_iff_toNat_lt]; omega
  cases policy with
  | normal =>
    have hnat : x'.mExpiredTime.toNat = now.toNat + x.mTimeout.toNat := by
      simp only [hexp, nextExpiry, UInt64.toNat_add]
      exact Nat.mod_eq_of_lt hwrap
    have hlate : now < x'.mExpiredTime := by rw [UInt64.lt_iff_toNat_lt]; omega
    have hnotle : ¬ x'.mExpiredTime ≤ now := by rw [UInt64.le_iff_toNat_le]; omega
    refine ⟨hfit fun hle => absurd hle hnotle, ?_, ?_, fun hle => absurd hle hnotle, fun _ => hnat⟩
    · rw [fires, fires, if_neg hnow, if_pos hlate, periodic]
      rfl
    · rw [UInt64.le_iff_toNat_le]; omega
  | compensate =>
    let d := (now.toNat - x.mExpiredTime.toNat) / x.mTimeout.toNat
    have hfinal : finalExpiry .compensate now x =
      x.mExpiredTime.toNat + (d + 1) * x.mTimeout.toNat := rfl
    have hstep : (d + 1) * x.mTimeout.toNat = d * x.mTimeout.toNat + x.mTimeout.toNat :=
      Nat.succ_mul _ _
    have hnat : x'.mExpiredTime.toNat = x.mExpiredTime.toNat + x.mTimeout.toNat := by
      simp only [hexp, nextExpiry, UInt64.toNat_add]
      exact Nat.mod_eq_of_lt (by omega)
    have hfires : fires .compensate now x = d + 1 := by
      rw [fires, if_neg hnow, periodic]
      rfl
    have hgrow : x.mExpiredTime ≤ x'.mExpiredTime := by rw [UInt64.le_iff_toNat_le]; omega
    by_cases hdue : x'.mExpiredTime ≤ now
    · -- one period less fits between the expiry and now
      have hdue' := UInt64.le_iff_toNat_le.mp hdue
      have hless : (now.toNat - x'.mExpiredTime.toNat) / x.mTimeout.toNat + 1 = d := by
        rw [hnat, ← Nat.sub_sub]
        exact (Nat.div_eq_sub_div hpos (by omega)).symm
      have hfinal' : finalExpiry .compensate now x' = finalExpiry .compensate now x := by
        simp only [finalExpiry, htime]
        rw [hless]
        show _ = x.mExpiredTime.toNat + (d + 1) * x.mTimeout.toNat
        omega
      have hlate : ¬ now < x'.mExpiredTime := by rw [UInt64.lt_iff_toNat_lt]; omega
      refine ⟨hfit fun _ => hfinal' ▸ hwrap, ?_, hgrow, fun _ => hfinal',
        fun hlt => absurd hlt hlate⟩
      rw [hfires, fires, if_neg hlate, honce, htime, ← hless]
      rfl
    · have hlate : now < x'.mExpiredTime := by
        rw [UInt64.le_iff_toNat_le] at hdue
        rw [UInt64.lt_iff_toNat_lt]; omega
      have hzero : d = 0 := by
        rw [UInt64.lt_iff_toNat_lt] at hlate
        exact Nat.div_eq_of_lt (by omega)
      refine ⟨hfit fun hle => absurd hle hdue, ?_, hgrow, fun hle => absurd hle hdue, fun _ => ?_⟩
      · rw [hfires, fires, if_pos hlate, hzero]
      · rw [hnat, hfinal, hzero]
        omega

/-! ## The measure -/

def pendingBut (s : TimerMgr) (now : UInt64) (t : Ptr) : ℕ :=
  ((s.members.erase t).map fun u => fires s.policy now (s.timers u)).sum

def pending (s : TimerMgr) (now : UInt64) : ℕ :=
  (s.members.map fun u => fires s.policy now (s.timers u)).sum

theorem pending_of_has {s : TimerMgr} {t : Ptr} (ht : s.Has t) (now : UInt64) :
    s.pending now = fires s.policy now (s.timers t) + s.pendingBut now t := by
  have hperm := List.perm_cons_erase ((mem_members s t).mpr ht)
  exact (hperm.map fun u => fires s.policy now (s.timers u)).sum_nat

theorem pending_of_not_has {s : TimerMgr} {t : Ptr} (ht : ¬ s.Has t) (now : UInt64) :
    s.pending now = s.pendingBut now t := by
  rw [pendingBut, List.erase_of_not_mem fun hm => ht ((mem_members s t).mp hm)]
  rfl

theorem fires_late (policy : Policy) {now : UInt64} {x : Timer} (late : now < x.mExpiredTime) :
    fires policy now x = 0 :=
  if_pos late

theorem fires_once (policy : Policy) {now : UInt64} {x : Timer} (due : x.mExpiredTime ≤ now)
    (once : x.mOnce = true) : fires policy now x = 1 := by
  unfold fires
  rw [if_neg (UInt64.not_lt.mpr due), if_pos once]

/-- What is summed up over the timers but `t` is the same before and after, if it has nothing to do
with their slots. -/
theorem sumBut_congr {s s' : TimerMgr} (h : Slots s) (h' : Slots s') {t : Ptr}
    (has : ∀ u, u ≠ t → (s'.Has u ↔ s.Has u)) (others : Others s s' t) {f : Timer → ℕ}
    (index : ∀ x idx, f { x with mIndex := idx } = f x) :
    ((s'.members.erase t).map fun u => f (s'.timers u)).sum =
      ((s.members.erase t).map fun u => f (s.timers u)).sum := by
  have hnodup := (nodup_members h).erase t
  have hnodup' := (nodup_members h').erase t
  have hperm : (s'.members.erase t).Perm (s.members.erase t) := by
    refine (List.perm_ext_iff_of_nodup hnodup' hnodup).mpr fun u => ?_
    rw [(nodup_members h').mem_erase_iff, (nodup_members h).mem_erase_iff, mem_members, mem_members]
    exact and_congr_right (has u)
  have hsame : (s'.members.erase t).map (fun u => f (s'.timers u)) =
      (s'.members.erase t).map fun u => f (s.timers u) := by
    refine List.map_congr_left fun u hu => ?_
    obtain ⟨idx, hidx⟩ := others.timers u ((nodup_members h').mem_erase_iff.mp hu).1
    rw [hidx, index]
  rw [hsame]
  exact (hperm.map _).sum_nat

theorem pendingBut_congr {s s' : TimerMgr} (h : Slots s) (h' : Slots s') {t : Ptr}
    (has : ∀ u, u ≠ t → (s'.Has u ↔ s.Has u)) (others : Others s s' t) (now : UInt64) :
    s'.pendingBut now t = s.pendingBut now t := by
  unfold pendingBut
  rw [others.owner.2]
  exact sumBut_congr h h' has others fun _ _ => rfl

theorem Passed.pending {s s' : TimerMgr} {now : UInt64} {t : Ptr} (h : Schedulable s now)
    (ht : s.Has t) (due : (s.timers t).mExpiredTime ≤ now) (hp : Passed s s' now t) :
    s.pending now = s'.pending now + 1 := by
  have hbut := pendingBut_congr h.heap.toSlots hp.heap.toSlots hp.has hp.others now
  rw [pending_of_has ht]
  cases honce : (s.timers t).mOnce with
  | true =>
    rw [pending_of_not_has (hp.once honce), hbut, fires_once _ due honce, Nat.add_comm]
  | false =>
    obtain ⟨hhas, idx, hx⟩ := hp.again honce
    obtain ⟨-, hfires, -⟩ := (h.fit t ht).next honce due (s'.timers t) (by rw [hx])
    rw [pending_of_has hhas, hbut, hfires, hp.others.owner.2]
    omega

theorem Passed.schedulable {s s' : TimerMgr} {now : UInt64} {t : Ptr} (h : Schedulable s now)
    (ht : s.Has t) (due : (s.timers t).mExpiredTime ≤ now) (hp : Passed s s' now t) :
    Schedulable s' now := by
  refine ⟨hp.heap, fun u hu => ?_⟩
  rw [hp.others.owner.2]
  by_cases hut : u = t
  · subst hut
    cases honce : (s.timers u).mOnce with
    | true => exact absurd hu (hp.once honce)
    | false =>
      obtain ⟨-, idx, hx⟩ := hp.again honce
      exact ((h.fit u ht).next honce due _ (by rw [hx])).1
  · obtain ⟨idx, hidx⟩ := hp.others.timers u hut
    have hfit := h.fit u ((hp.has u hut).mp hu)
    rw [hidx]
    exact ⟨hfit.status, hfit.timeout, hfit.callback, hfit.noWrap⟩

/-! ## The whole call -/

structure Scheduled (s s' : TimerMgr) (now : UInt64) (fired : List Fired) : Prop where
  heap : Heap s'
  sorted : fired.Pairwise fun f g => f.2 ≤ g.2
  due : ∀ f ∈ fired, f.2 ≤ now
  counts : ∀ t, s.Has t → (fired.map Prod.fst).count t = fires s.policy now (s.timers t)
  others : ∀ t, ¬ s.Has t → t ∉ fired.map Prod.fst ∧ ¬ s'.Has t
  untouched : ∀ t, s.Has t → now < (s.timers t).mExpiredTime →
    s'.Has t ∧ ∃ idx, s'.timers t = { s.timers t with mIndex := idx }
  once : ∀ t, s.Has t → (s.timers t).mExpiredTime ≤ now → (s.timers t).mOnce = true → ¬ s'.Has t
  periodic : ∀ t, s.Has t → (s.timers t).mExpiredTime ≤ now → (s.timers t).mOnce = false →
    s'.Has t ∧ (s'.timers t).mExpiredTime.toNat = finalExpiry s.policy now (s.timers t)
  rest : s'.elementsSize = 0 ∨ ∃ t, s'.top = some t ∧ now < (s'.timers t).mExpiredTime

theorem top_eq {s : TimerMgr} (h : Heap s) (pos : 0 < s.elementsSize) :
    ∃ t, s.elem 1 = some t ∧ s.Has t ∧ s.top = some t := by
  obtain ⟨t, ht, -⟩ := h.used 1 (Nat.le_refl 1) pos
  have hhas : s.Has t := ⟨1, Nat.le_refl 1, pos, ht⟩
  refine ⟨t, ht, hhas, ?_⟩
  rw [top, if_pos pos, ht]
  exact h.owned t hhas

theorem scheduled_nothing {s : TimerMgr} {now : UInt64} (h : Heap s)
    (late : ∀ t, s.Has t → now < (s.timers t).mExpiredTime)
    (rest : s.elementsSize = 0 ∨ ∃ t, s.top = some t ∧ now < (s.timers t).mExpiredTime) :
    Scheduled s s now [] where
  heap := h
  sorted := .nil
  due := fun _ hf => by cases hf
  counts := fun t ht => (fires_late _ (late t ht)).symm
  others := fun t ht => ⟨nofun, ht⟩
  untouched := fun t ht _ => ⟨ht, (s.timers t).mIndex, rfl⟩
  once := fun t ht due => absurd (late t ht) (UInt64.not_lt.mpr due)
  periodic := fun t ht due => absurd (late t ht) (UInt64.not_lt.mpr due)
  rest := rest

/-- A pass, then the rest of the call: the timer popped was the earliest, so whatever fires later
fires at no earlier expiry. -/
theorem Passed.scheduled {s s₁ s' : TimerMgr} {now : UInt64} {t : Ptr} {fired : List Fired}
    (h : Schedulable s now) (ht : s.Has t) (due : (s.timers t).mExpiredTime ≤ now)
    (first : ∀ u, s.Has u → (s.timers t).mExpiredTime ≤ (s.timers u).mExpiredTime)
    (hp : Passed s s₁ now t) (hs : Scheduled s₁ s' now fired)
    (late : ∀ f ∈ fired, ∃ u, s₁.Has u ∧ (s₁.timers u).mExpiredTime ≤ f.2) :
    Scheduled s s' now ((t, (s.timers t).mExpiredTime) :: fired) := by
  have hpol : s₁.policy = s.policy := hp.others.owner.2
  have hnow : ¬ now < (s.timers t).mExpiredTime := UInt64.not_lt.mpr due
  have hother {u : Ptr} (hu : u ≠ t) : ∃ idx, s₁.timers u = { s.timers u with mIndex := idx } :=
    hp.others.timers u hu
  have hcount {u : Ptr} (hu : u ≠ t) :
      (((t, (s.timers t).mExpiredTime) :: fired).map Prod.fst).count u =
        (fired.map Prod.fst).count u := by
    rw [List.map_cons, List.count_cons_of_ne fun htu => hu htu.symm]
  refine ⟨hs.heap, List.pairwise_cons.mpr ⟨fun f hf => ?_, hs.sorted⟩, fun f hf => ?_,
    fun u hu => ?_, fun u hu => ?_, fun u hu hlate => ?_, fun u hu hdue honce => ?_,
    fun u hu hdue honce => ?_, hs.rest⟩
  · obtain ⟨u, hu, hle⟩ := late f hf
    refine UInt64.le_trans ?_ hle
    by_cases hut : u = t
    · subst hut
      cases honce : (s.timers u).mOnce with
      | true => exact absurd hu (hp.once honce)
      | false =>
        obtain ⟨-, idx, hx⟩ := hp.again honce
        exact ((h.fit u ht).next honce due _ (by rw [hx])).2.2.1
    · obtain ⟨idx, hidx⟩ := hother hut
      rw [hidx]
      exact first u ((hp.has u hut).mp hu)
  · rcases List.mem_cons.mp hf with rfl | hf
    · exact due
    · exact hs.due f hf
  · by_cases hut : u = t
    · subst hut
      rw [List.map_cons, List.count_cons_self]
      cases honce : (s.timers u).mOnce with
      | true =>
        have hnone := (hs.others u (hp.once honce)).1
        rw [List.count_eq_zero_of_not_mem hnone, fires_once _ due honce]
      | false =>
        obtain ⟨hhas, idx, hx⟩ := hp.again honce
        rw [hs.counts u hhas, hpol]
        exact ((h.fit u hu).next honce due _ (by rw [hx])).2.1.symm
    · obtain ⟨idx, hidx⟩ := hother hut
      rw [hcount hut, hs.counts u ((hp.has u hut).mpr hu), hpol, hidx]
      rfl
  · have hut : u ≠ t := fun hut => hu (hut ▸ ht)
    obtain ⟨hnone, hout⟩ := hs.others u fun hh => hu ((hp.has u hut).mp hh)
    refine ⟨fun hm => ?_, hout⟩
    rcases List.mem_cons.mp hm with h | h
    · exact hut h
    · exact hnone h
  · have hut : u ≠ t := fun hut => hnow (hut ▸ hlate)
    obtain ⟨idx, hidx⟩ := hother hut
    obtain ⟨hhas, idx', hidx'⟩ := hs.untouched u ((hp.has u hut).mpr hu) (by rw [hidx]; exact hlate)
    exact ⟨hhas, idx', by rw [hidx', hidx]⟩
  · by_cases hut : u = t
    · rw [hut] at honce ⊢
      exact (hs.others t (hp.once honce)).2
    · obtain ⟨idx, hidx⟩ := hother hut
      exact hs.once u ((hp.has u hut).mpr hu) (by rw [hidx]; exact hdue) (by rw [hidx]; exact honce)
  · by_cases hut : u = t
    · subst hut
      obtain ⟨hhas, idx, hx⟩ := hp.again honce
      obtain ⟨-, -, -, hfinal, hend⟩ := (h.fit u hu).next honce due (s₁.timers u) (by rw [hx])
      by_cases hlate : now < (s₁.timers u).mExpiredTime
      · obtain ⟨hhas', idx', hx'⟩ := hs.untouched u hhas hlate
        exact ⟨hhas', by rw [hx']; exact hend hlate⟩
      · have hdue' := UInt64.not_lt.mp hlate
        obtain ⟨hhas', hx'⟩ := hs.periodic u hhas hdue' (by rw [hx]; exact honce)
        exact ⟨hhas', by rw [hx', hpol]; exact hfinal hdue'⟩
    · obtain ⟨idx, hidx⟩ := hother hut
      have := hs.periodic u ((hp.has u hut).mpr hu) (by rw [hidx]; exact hdue)
        (by rw [hidx]; exact honce)
      rw [hpol, hidx] at this
      exact this

theorem scheduleLoop_spec (tid : ThreadId) (now : UInt64) (fuel : ℕ) {s : TimerMgr}
    (h : Schedulable s now) (enough : s.pending now < fuel) :
    ∃ s' fired, scheduleLoop tid now fuel s = some (s', fired) ∧ Scheduled s s' now fired ∧
      ∀ f ∈ fired, ∃ u, s.Has u ∧ (s.timers u).mExpiredTime ≤ f.2 := by
  induction fuel generalizing s with
  | zero => omega
  | succ fuel ih =>
    by_cases hpos : 0 < s.elementsSize
    · obtain ⟨t, ht, hhas, htop⟩ := top_eq h.heap hpos
      have hfirst (u : Ptr) (hu : s.Has u) := h.heap.root_le ht hu
      by_cases hlate : now < (s.timers t).mExpiredTime
      · refine ⟨s, [], ?_, scheduled_nothing h.heap (fun u hu => ?_) (.inr ⟨t, htop, hlate⟩), nofun⟩
        · simp only [scheduleLoop, if_pos hpos, htop, Option.bind_eq_bind, Option.bind_some,
            if_pos hlate]
          rfl
        · exact UInt64.lt_of_lt_of_le hlate (hfirst u hu)
      · have hdue := UInt64.not_lt.mp hlate
        have hfit := h.fit t hhas
        obtain ⟨s₁, hs₁, hp⟩ := pass_spec h.heap ht hpos hfit.status hfit.callback tid now
        have hmeasure := hp.pending h hhas hdue
        obtain ⟨s', fired, hs', hsched, hafter⟩ := ih (hp.schedulable h hhas hdue) (by omega)
        refine ⟨s', _, ?_, hp.scheduled h hhas hdue hfirst hsched hafter, fun f hf => ?_⟩
        · simp only [scheduleLoop, if_pos hpos, htop, Option.bind_eq_bind, Option.bind_some,
            if_neg hlate, hs₁, hs']
          rfl
        · have hsorted := List.pairwise_cons.mp
            (hp.scheduled h hhas hdue hfirst hsched hafter).sorted
          rcases List.mem_cons.mp hf with rfl | hf
          · exact ⟨t, hhas, UInt64.le_refl _⟩
          · exact ⟨t, hhas, hsorted.1 f hf⟩
    · refine ⟨s, [], if_neg hpos, ?_, nofun⟩
      refine scheduled_nothing h.heap (fun u hu => ?_) (.inl (by omega))
      obtain ⟨i, hi, hi', -⟩ := hu
      omega

/-- Passes that are not needed change nothing. -/
theorem scheduleLoop_succ {tid : ThreadId} {now : UInt64} {fuel : ℕ} {s : TimerMgr}
    {r : TimerMgr × List Fired} (h : scheduleLoop tid now fuel s = some r) :
    scheduleLoop tid now (fuel + 1) s = some r := by
  induction fuel generalizing s r with
  | zero => cases h
  | succ fuel ih =>
    rw [scheduleLoop] at h ⊢
    by_cases hpos : 0 < s.elementsSize
    · rw [if_pos hpos] at h ⊢
      simp only [Option.bind_eq_bind, Option.bind_eq_some_iff] at h ⊢
      obtain ⟨t, ht, h⟩ := h
      refine ⟨t, ht, ?_⟩
      by_cases hlate : now < (s.timers t).mExpiredTime
      · rw [if_pos hlate] at h ⊢
        exact h
      · rw [if_neg hlate] at h ⊢
        simp only [Option.bind_eq_some_iff] at h ⊢
        obtain ⟨⟨s₁, fired⟩, hpass, ⟨s', rest⟩, hrest, hr⟩ := h
        exact ⟨⟨s₁, fired⟩, hpass, ⟨s', rest⟩, ih hrest, hr⟩
    · rw [if_neg hpos] at h ⊢
      exact h

/-- A call at `now` returns, and allowing more passes than it needs makes no difference: it fires
what is due, in order, as often as the policy says. -/
theorem schedule_fires_due {s : TimerMgr} {now : UInt64} (h : Schedulable s now) (tid : ThreadId) :
    ∃ s' fired, (∀ fuel, s.pending now < fuel →
      scheduleLoop tid now fuel s = some (s', fired)) ∧ Scheduled s s' now fired := by
  obtain ⟨s', fired, hs', hsched, -⟩ := scheduleLoop_spec tid now (s.pending now + 1) h (by omega)
  refine ⟨s', fired, fun fuel hfuel => ?_, hsched⟩
  induction fuel, hfuel using Nat.le_induction with
  | base => exact hs'
  | succ fuel _ ih => exact scheduleLoop_succ ih

def sampleTimers (t : Ptr) : Timer :=
  if t = 0 then Timer.new 0 5 false 7 else Timer.new 0 40 false 8

theorem schedule_fires_due_sample : ∃ s s' fired,
    Machine.exec opStep (TimerMgr.new 1 .compensate sampleTimers) [.insert 0 10, .insert 1 40] =
      some s ∧
    (∀ fuel, s.pending 20 < fuel → scheduleLoop 3 20 fuel s = some (s', fired)) ∧
    Scheduled s s' 20 fired ∧ fired = [(0, 10), (0, 15), (0, 20)] := by
  have h : (Machine.exec opStep (TimerMgr.new 1 .compensate sampleTimers)
      [.insert 0 10, .insert 1 40]).map (fun s => (s.members, s.policy, s.pending 20, s.timers 0,
        s.timers 1, (scheduleLoop 3 20 4 s).map Prod.snd)) =
      some ([0, 1], .compensate, 3, ⟨some 7, 10, 5, false, some 1, 1, 0, none, some 0⟩,
        ⟨some 8, 40, 40, false, some 1, 2, 0, none, some 1⟩,
        some [(0, 10), (0, 15), (0, 20)]) := rfl
  obtain ⟨s, hs, hview⟩ := Option.map_eq_some_iff.mp h
  simp only [Prod.mk.injEq] at hview
  obtain ⟨hmem, hpol, hpend, h0, h1, hfired⟩ := hview
  have hfits : ∀ t, s.Has t → Fit s.policy 20 (s.timers t) := by
    intro t ht
    rw [← mem_members, hmem] at ht
    rw [hpol]
    rcases List.mem_cons.mp ht with rfl | ht
    · rw [h0]
      exact ⟨rfl, by decide, rfl, fun _ _ => by decide⟩
    · rw [List.mem_singleton.mp ht, h1]
      exact ⟨rfl, by decide, rfl, fun _ _ => by decide⟩
  have hheap := (fresh_new _ _ sampleTimers fun t => by
    unfold sampleTimers; split <;> exact ⟨rfl, rfl⟩).reaches (Machine.Reaches.of_exec _ hs)
  obtain ⟨s', fired, hloop, hsched⟩ := schedule_fires_due ⟨hheap, hfits⟩ 3
  refine ⟨s, s', fired, hs, hloop, hsched, ?_⟩
  rw [hloop 4 (by omega)] at hfired
  exact Option.some.inj hfired

end Hwnet.TimerMgr
