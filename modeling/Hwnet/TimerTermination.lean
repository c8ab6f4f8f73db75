import Hwnet.TimerThreadSteps
import Mathlib.Data.Int.GCD
import Mathlib.Data.Nat.Find
import Mathlib.Data.Nat.ModEq

set_option autoImplicit false

/-!
# Whether Schedule returns

The loop inserts a periodic timer into the heap it drains. It comes to its end if and only if every
periodic timer of the heap is armed for a later time after finitely many calls.
-/
namespace Hwnet.TimerMgr

open Timer

/-! ## Steps around a ring -/

/-- In steps of `p` around a ring of `n`, starting at `e`, a point past `x` is met if and only if
the last one that is `e` modulo `gcd p n` is past `x`. -/
theorem exists_past_iff {n e x : ℕ} (p : ℕ) (inside : e < n) :
    (∃ k, x < (e + k * p) % n) ↔ x < n - Nat.gcd p n + e % Nat.gcd p n := by
  have hn : 0 < n := Nat.zero_lt_of_lt inside
  generalize hgcd : Nat.gcd p n = g
  have hg : 0 < g := hgcd ▸ Nat.gcd_pos_of_pos_right p hn
  have hgn : g ∣ n := hgcd ▸ Nat.gcd_dvd_right p n
  obtain ⟨m, hm⟩ := id hgn
  obtain ⟨q, hq⟩ : g ∣ p := hgcd ▸ Nat.gcd_dvd_left p n
  have hsplit (v : ℕ) : g * (v / g) + v % g = v := Nat.div_add_mod v g
  have hbelow {v : ℕ} (hv : v < n) : g * (v / g) ≤ n - g := by
    have hroom : v / g < m := by
      rw [Nat.div_lt_iff_lt_mul hg, Nat.mul_comm]
      exact hm ▸ hv
    calc g * (v / g) ≤ g * (m - 1) := Nat.mul_le_mul_left g (Nat.le_sub_one_of_lt hroom)
      _ = n - g := by rw [Nat.mul_sub_one, ← hm]
  constructor
  · rintro ⟨k, hk⟩
    have hv : (e + k * p) % n % g = e % g := by
      rw [Nat.mod_mod_of_dvd _ hgn, hq, Nat.mul_left_comm, Nat.add_mul_mod_self_left]
    have hle := hbelow (Nat.mod_lt (e + k * p) hn)
    have := hsplit ((e + k * p) % n)
    omega
  · intro hx
    by_cases hless : g < n
    · obtain ⟨j, -, hj⟩ := Nat.exists_mul_mod_eq_gcd (hgcd.symm ▸ hless)
      -- so many steps of `g`, each of which is `j` steps of `p`
      let r := m - 1 - e / g
      have hr : e + r * g = n - g + e % g := by
        have hmul : r * g = n - g - g * (e / g) := by
          rw [Nat.mul_comm, Nat.mul_sub, Nat.mul_sub_one, ← hm]
        have hle := hbelow inside
        have := hsplit e
        omega
      have hsame : (e + r * j * p) % n = (e + r * g) % n := by
        refine Nat.ModEq.add_left e ?_
        rw [Nat.mul_assoc, Nat.mul_comm j p]
        refine Nat.ModEq.mul_left r ?_
        rw [Nat.ModEq, hj, hgcd, Nat.mod_eq_of_lt hless]
      have hlt : e % g < g := Nat.mod_lt e hg
      refine ⟨r * j, ?_⟩
      rw [hsame, hr, Nat.mod_eq_of_lt (by omega)]
      exact hx
    · have hgn' : g = n := Nat.le_antisymm (Nat.le_of_dvd hn hgn) (Nat.le_of_not_lt hless)
      refine ⟨0, ?_⟩
      rw [hgn', Nat.sub_self, Nat.zero_add] at hx
      simpa using hx

/-! ## Timers that come to an end -/

def expiryAfter (policy : Policy) (now : UInt64) (x : Timer) : ℕ → UInt64
  | 0 => x.mExpiredTime
  | k + 1 => nextExpiry policy now { x with mExpiredTime := expiryAfter policy now x k }

/-- The timer is not due, or armed for a time past `now` after some calls: of the expiries that the
time-out leads to, the last before they wrap around and repeat is past `now`. -/
def ends (policy : Policy) (now : UInt64) (x : Timer) : Bool :=
  match policy with
  | .normal => now < x.mExpiredTime ||
    (0 < x.mTimeout && now.toNat + x.mTimeout.toNat < 2 ^ 64)
  | .compensate =>
    let g := Nat.gcd x.mTimeout.toNat (2 ^ 64)
    now.toNat < 2 ^ 64 - g + x.mExpiredTime.toNat % g

theorem expiryAfter_normal (now : UInt64) (x : Timer) (k : ℕ) :
    expiryAfter .normal now x (k + 1) = now + x.mTimeout := rfl

theorem expiryAfter_compensate (now : UInt64) (x : Timer) (k : ℕ) :
    (expiryAfter .compensate now x k).toNat =
      (x.mExpiredTime.toNat + k * x.mTimeout.toNat) % 2 ^ 64 := by
  induction k with
  | zero =>
    rw [Nat.zero_mul, Nat.add_zero]
    exact (Nat.mod_eq_of_lt x.mExpiredTime.toNat_lt).symm
  | succ k ih =>
    show (expiryAfter .compensate now x k + x.mTimeout).toNat = _
    rw [UInt64.toNat_add, ih, Nat.mod_add_mod, Nat.add_assoc, ← Nat.succ_mul]

theorem lt_add_iff (now x : UInt64) :
    now < now + x ↔ 0 < x ∧ now.toNat + x.toNat < 2 ^ 64 := by
  rw [UInt64.lt_iff_toNat_lt, UInt64.lt_iff_toNat_lt, UInt64.toNat_add, UInt64.toNat_zero]
  have hx := x.toNat_lt
  have hnow := now.toNat_lt
  by_cases hfits : now.toNat + x.toNat < 2 ^ 64
  · rw [Nat.mod_eq_of_lt hfits]
    omega
  · rw [Nat.mod_eq_sub_mod (by omega), Nat.mod_eq_of_lt (by omega)]
    omega

theorem ends_iff (policy : Policy) (now : UInt64) (x : Timer) :
    ends policy now x = true ↔ ∃ k, now < expiryAfter policy now x k := by
  cases policy with
  | normal =>
    have hlater (k : ℕ) : now < expiryAfter .normal now x (k + 1) ↔
        0 < x.mTimeout ∧ now.toNat + x.mTimeout.toNat < 2 ^ 64 := by
      rw [expiryAfter_normal, lt_add_iff]
    simp only [ends, Bool.or_eq_true, Bool.and_eq_true, decide_eq_true_eq]
    constructor
    · rintro (hlate | hfits)
      · exact ⟨0, hlate⟩
      · exact ⟨1, (hlater 0).mpr hfits⟩
    · rintro ⟨_ | k, hk⟩
      · exact .inl hk
      · exact .inr ((hlater k).mp hk)
  | compensate =>
    simp only [ends, decide_eq_true_eq, UInt64.lt_iff_toNat_lt, expiryAfter_compensate]
    exact (exists_past_iff x.mTimeout.toNat x.mExpiredTime.toNat_lt).symm

def rounds (policy : Policy) (now : UInt64) (x : Timer) : ℕ :=
  if x.mOnce then if now < x.mExpiredTime then 0 else 1
  else if h : ends policy now x = true then Nat.find ((ends_iff policy now x).mp h) else 0

theorem rounds_once (policy : Policy) {now : UInt64} {x : Timer} (once : x.mOnce = true)
    (due : x.mExpiredTime ≤ now) : rounds policy now x = 1 := by
  rw [rounds, if_pos once, if_neg (UInt64.not_lt.mpr due)]

section Again

variable {policy : Policy} {now : UInt64} {x x' : Timer}

/-- A timer that has come as far as `x` after `j` calls has the expiries `x` has from there. -/
theorem expiryAfter_from {j : ℕ} (timeout : x'.mTimeout = x.mTimeout)
    (expired : x'.mExpiredTime = expiryAfter policy now x j) (k : ℕ) :
    expiryAfter policy now x' k = expiryAfter policy now x (j + k) := by
  induction k with
  | zero => exact expired
  | succ k ih =>
    show nextExpiry policy now { x' with mExpiredTime := expiryAfter policy now x' k } = _
    rw [ih]
    cases policy with
    | normal => exact congrArg (now + ·) timeout
    | compensate => exact congrArg (expiryAfter .compensate now x (j + k) + ·) timeout

/-- The expiries of a timer that is armed again are those it still had before it. -/
theorem expiryAfter_again (timeout : x'.mTimeout = x.mTimeout)
    (expired : x'.mExpiredTime = nextExpiry policy now x) (k : ℕ) :
    expiryAfter policy now x' k = expiryAfter policy now x (k + 1) := by
  rw [expiryAfter_from (j := 1) timeout expired, Nat.add_comm]

theorem ends_again (timeout : x'.mTimeout = x.mTimeout)
    (expired : x'.mExpiredTime = nextExpiry policy now x) (due : x.mExpiredTime ≤ now) :
    ends policy now x' = ends policy now x := by
  rw [Bool.eq_iff_iff, ends_iff, ends_iff]
  simp only [expiryAfter_again timeout expired]
  constructor
  · rintro ⟨k, hk⟩
    exact ⟨k + 1, hk⟩
  · rintro ⟨_ | k, hk⟩
    · exact absurd hk (UInt64.not_lt.mpr due)
    · exact ⟨k, hk⟩

/-- A call brings a periodic timer that ends one call nearer to its end. -/
theorem rounds_again (once : x.mOnce = false) (once' : x'.mOnce = false)
    (timeout : x'.mTimeout = x.mTimeout) (expired : x'.mExpiredTime = nextExpiry policy now x)
    (due : x.mExpiredTime ≤ now) (hends : ends policy now x = true) :
    rounds policy now x = rounds policy now x' + 1 := by
  have hends' : ends policy now x' = true := (ends_again timeout expired due).trans hends
  have hx := (ends_iff policy now x).mp hends
  have hx' : ∃ k, now < expiryAfter policy now x (k + 1) := by
    simpa only [expiryAfter_again timeout expired] using (ends_iff policy now x').mp hends'
  have hfind := Nat.find_comp_succ hx hx' (UInt64.not_lt.mpr due)
  simp only [rounds, once, once', Bool.false_eq_true, if_false, dif_pos hends, dif_pos hends',
    expiryAfter_again timeout expired]
  exact hfind

theorem rounds_index (policy : Policy) (now : UInt64) (x : Timer) (idx : ℕ) :
    rounds policy now { x with mIndex := idx } = rounds policy now x := by
  have hsame (k : ℕ) : expiryAfter policy now { x with mIndex := idx } k =
      expiryAfter policy now x (0 + k) := by
    apply expiryAfter_from <;> rfl
  simp only [rounds, hsame, Nat.zero_add]
  rfl

end Again

/-! ## The loop -/

structure Calm (s : TimerMgr) : Prop where
  heap : Heap s
  status : ∀ t, s.Has t → (s.timers t).mStatus = 0
  callback : ∀ t, s.Has t → (s.timers t).mCallback.isSome = true

structure Endless (s : TimerMgr) (now : UInt64) (t : Ptr) : Prop where
  has : s.Has t
  periodic : (s.timers t).mOnce = false
  endless : ends s.policy now (s.timers t) = false

section Loop

variable {s s' : TimerMgr} {now : UInt64} {t u : Ptr} {tid : ThreadId}

theorem Passed.calm (hp : Passed s s' now t) (h : Calm s) (ht : s.Has t) : Calm s' := by
  have hcases (u : Ptr) (hu : s'.Has u) :
      s.Has u ∧ (s'.timers u).mStatus = (s.timers u).mStatus ∧
        (s'.timers u).mCallback = (s.timers u).mCallback := by
    by_cases hut : u = t
    · subst hut
      cases honce : (s.timers u).mOnce with
      | true => exact absurd hu (hp.once honce)
      | false =>
        obtain ⟨-, idx, hx⟩ := hp.again honce
        exact ⟨ht, by rw [hx], by rw [hx]⟩
    · obtain ⟨idx, hidx⟩ := hp.others.timers u hut
      exact ⟨(hp.has u hut).mp hu, by rw [hidx], by rw [hidx]⟩
  refine ⟨hp.heap, fun u hu => ?_, fun u hu => ?_⟩
  · obtain ⟨hhas, hstatus, -⟩ := hcases u hu
    rw [hstatus]
    exact h.status u hhas
  · obtain ⟨hhas, -, hcallback⟩ := hcases u hu
    rw [hcallback]
    exact h.callback u hhas

/-- A pass leaves the timers that are called for ever as they are. -/
theorem Passed.endless (hp : Passed s s' now t) (ht : s.Has t)
    (due : (s.timers t).mExpiredTime ≤ now) : Endless s' now u ↔ Endless s now u := by
  have hframe (has : s'.Has u ↔ s.Has u) (once : (s'.timers u).mOnce = (s.timers u).mOnce)
      (same : ends s'.policy now (s'.timers u) = ends s.policy now (s.timers u)) :
      Endless s' now u ↔ Endless s now u :=
    ⟨fun h => ⟨has.mp h.has, once ▸ h.periodic, same ▸ h.endless⟩,
      fun h => ⟨has.mpr h.has, once ▸ h.periodic, same ▸ h.endless⟩⟩
  have hpolicy := hp.others.owner.2
  by_cases hut : u = t
  · subst hut
    cases honce : (s.timers u).mOnce with
    | true =>
      refine ⟨fun h => absurd h.has (hp.once honce), fun h => ?_⟩
      cases honce.symm.trans h.periodic
    | false =>
      obtain ⟨hhas, idx, hx⟩ := hp.again honce
      refine hframe (iff_of_true hhas ht) (by rw [hx]) ?_
      rw [hpolicy]
      exact ends_again (by rw [hx]) (by rw [hx]) due
  · obtain ⟨idx, hidx⟩ := hp.others.timers u hut
    refine hframe (hp.has u hut) (by rw [hidx]) ?_
    rw [hpolicy, hidx]
    rfl

def roundsLeft (s : TimerMgr) (now : UInt64) : ℕ :=
  (s.members.map fun u => rounds s.policy now (s.timers u)).sum

theorem Passed.roundsLeft (hp : Passed s s' now t) (h : Heap s) (ht : s.Has t)
    (due : (s.timers t).mExpiredTime ≤ now) (hends : ¬ Endless s now t) :
    s.roundsLeft now = s'.roundsLeft now + 1 := by
  have hbut := sumBut_congr (f := rounds s.policy now) h.toSlots hp.heap.toSlots hp.has hp.others
    (rounds_index s.policy now)
  have hhead {m : TimerMgr} (hm : m.Has t) :
      (m.members.map fun u => rounds s.policy now (m.timers u)).sum =
        rounds s.policy now (m.timers t) +
          ((m.members.erase t).map fun u => rounds s.policy now (m.timers u)).sum :=
    ((List.perm_cons_erase ((mem_members m t).mpr hm)).map _).sum_nat
  simp only [TimerMgr.roundsLeft, hp.others.owner.2]
  rw [hhead ht, ← hbut]
  cases honce : (s.timers t).mOnce with
  | true =>
    have hout : t ∉ s'.members := fun hm => hp.once honce ((mem_members s' t).mp hm)
    rw [rounds_once _ honce due, List.erase_of_not_mem hout, Nat.add_comm]
  | false =>
    obtain ⟨hhas, idx, hx⟩ := hp.again honce
    have hends' : ends s.policy now (s.timers t) = true := by
      by_contra hendless
      exact hends ⟨ht, honce, Bool.not_eq_true _ ▸ hendless⟩
    have hnext : rounds s.policy now (s.timers t) = rounds s.policy now (s'.timers t) + 1 :=
      rounds_again honce (by rw [hx]; exact honce) (by rw [hx]) (by rw [hx]) due hends'
    rw [hhead hhas, hnext]
    omega

/-- The loop finds nothing due, or has a pass for one more timer before it. -/
theorem loop_cases (h : Calm s) (tid : ThreadId) (now : UInt64) (fuel : ℕ) :
    scheduleLoop tid now (fuel + 1) s = some (s, []) ∧
      (∀ t, s.Has t → now < (s.timers t).mExpiredTime) ∨
    ∃ t s₁, s.Has t ∧ (s.timers t).mExpiredTime ≤ now ∧ Passed s s₁ now t ∧
      scheduleLoop tid now (fuel + 1) s =
        (scheduleLoop tid now fuel s₁).map fun (m, fired) =>
          (m, (t, (s.timers t).mExpiredTime) :: fired) := by
  by_cases hpos : 0 < s.elementsSize
  · obtain ⟨t, ht, hhas, htop⟩ := top_eq h.heap hpos
    by_cases hlate : now < (s.timers t).mExpiredTime
    · refine .inl ⟨?_, fun u hu => UInt64.lt_of_lt_of_le hlate (h.heap.root_le ht hu)⟩
      simp only [scheduleLoop, if_pos hpos, htop, Option.bind_eq_bind, Option.bind_some,
        if_pos hlate]
      rfl
    · obtain ⟨s₁, hs₁, hp⟩ := pass_spec h.heap ht hpos (h.status t hhas) (h.callback t hhas) tid now
      refine .inr ⟨t, s₁, hhas, UInt64.not_lt.mp hlate, hp, ?_⟩
      simp only [scheduleLoop, if_pos hpos, htop, Option.bind_eq_bind, Option.bind_some,
        if_neg hlate, hs₁]
      cases scheduleLoop tid now fuel s₁ <;> rfl
  · refine .inl ⟨if_neg hpos, fun t ht => ?_⟩
    obtain ⟨i, hi, hi', -⟩ := ht
    omega

theorem loops_of_endless (fuel : ℕ) (h : Calm s) (hendless : Endless s now t) :
    scheduleLoop tid now fuel s = none := by
  induction fuel generalizing s with
  | zero => rfl
  | succ fuel ih =>
    rcases loop_cases h tid now fuel with ⟨-, hlate⟩ | ⟨u, s₁, hu, hdue, hp, hloop⟩
    · have hends : ends s.policy now (s.timers t) = true :=
        (ends_iff s.policy now (s.timers t)).mpr ⟨0, hlate t hendless.has⟩
      cases hendless.endless.symm.trans hends
    · rw [hloop, ih (hp.calm h hu) ((hp.endless hu hdue).mpr hendless)]
      rfl

theorem returns_of_ends (fuel : ℕ) (h : Calm s) (hends : ∀ t, ¬ Endless s now t)
    (enough : s.roundsLeft now < fuel) : (scheduleLoop tid now fuel s).isSome = true := by
  induction fuel generalizing s with
  | zero => omega
  | succ fuel ih =>
    rcases loop_cases h tid now fuel with ⟨hloop, -⟩ | ⟨u, s₁, hu, hdue, hp, hloop⟩
    · rw [hloop]
      rfl
    · have hrounds := hp.roundsLeft h.heap hu hdue (hends u)
      rw [hloop, Option.isSome_map]
      exact ih (hp.calm h hu) (fun t ht => hends t ((hp.endless hu hdue).mp ht)) (by omega)

/-- A call that returns leaves the heap calm, with no timer that was not in it. -/
theorem loop_calm (fuel : ℕ) (h : Calm s) {r : TimerMgr × List Fired}
    (hloop : scheduleLoop tid now fuel s = some r) : Calm r.1 ∧ ∀ t, r.1.Has t → s.Has t := by
  induction fuel generalizing s r with
  | zero => cases hloop
  | succ fuel ih =>
    rcases loop_cases h tid now fuel with ⟨hstop, -⟩ | ⟨u, s₁, hu, -, hp, hgo⟩
    · obtain rfl := Option.some.inj (hloop.symm.trans hstop)
      exact ⟨h, fun _ => id⟩
    · obtain ⟨r₁, hr₁, rfl⟩ := Option.map_eq_some_iff.mp (hgo.symm.trans hloop)
      obtain ⟨hcalm, hhas⟩ := ih (hp.calm h hu) hr₁
      refine ⟨hcalm, fun t ht => ?_⟩
      by_cases htu : t = u
      · exact htu ▸ hu
      · exact (hp.has t htu).mp (hhas t ht)

end Loop

/-! ## The states a manager reaches -/

/-- The calls of a manager whose callbacks leave it alone; `Schedule` returns within `fuel`
passes. -/
inductive Call where
  | addTimer (t : Ptr) (now timeout : UInt64) (once : Bool) (cb : Callback)
  | schedule (tid : ThreadId) (now : UInt64) (fuel : ℕ)
  deriving DecidableEq, Repr

def callStep (s : Sys) : Call → Option Sys
  | .addTimer t now timeout once cb => s.addTimer t now timeout once cb
  | .schedule tid now fuel =>
    (scheduleLoop tid now fuel s.mgr).map fun (mgr, _) => { s with mgr }

theorem callStep_calm {s s' : Sys} (h : Calm s.mgr) (known : ∀ t, s.mgr.Has t → t ∈ s.handles)
    {c : Call} (hstep : callStep s c = some s') :
    Calm s'.mgr ∧ ∀ t, s'.mgr.Has t → t ∈ s'.handles := by
  cases c with
  | addTimer t now timeout once cb =>
    obtain ⟨-, -, m, idx, rfl, hinserted, hx⟩ := addTimer_inserted h.heap known hstep
    have hcases (u : Ptr) (hu : m.Has u) : u = t ∨ s.mgr.Has u ∧
        (m.timers u).mStatus = (s.mgr.timers u).mStatus ∧
        (m.timers u).mCallback = (s.mgr.timers u).mCallback := by
      by_cases hut : u = t
      · exact .inl hut
      · obtain ⟨i, hi⟩ := hinserted.others.timers u hut
        rw [setTimer_of_ne _ _ hut] at hi
        exact .inr ⟨(setTimer_has _ _ _ u).mp (((hinserted.has u).mp hu).resolve_right hut),
          by rw [hi], by rw [hi]⟩
    refine ⟨⟨hinserted.heap, fun u hu => ?_, fun u hu => ?_⟩, fun u hu => ?_⟩
    · rcases hcases u hu with rfl | ⟨hhas, hstatus, -⟩
      · exact congrArg Timer.mStatus hx
      · exact hstatus.trans (h.status u hhas)
    · rcases hcases u hu with rfl | ⟨hhas, -, hcallback⟩
      · exact congrArg (fun x : Timer => x.mCallback.isSome) hx
      · exact (congrArg Option.isSome hcallback).trans (h.callback u hhas)
    · rcases hcases u hu with rfl | ⟨hhas, -⟩
      · exact List.mem_cons_self
      · exact List.mem_cons_of_mem t (known u hhas)
  | schedule tid now fuel =>
    obtain ⟨r, hr, rfl⟩ := Option.map_eq_some_iff.mp hstep
    obtain ⟨hcalm, hhas⟩ := loop_calm fuel h hr
    exact ⟨hcalm, fun t ht => known t (hhas t ht)⟩

theorem calm_reaches {self : MgrPtr} {policy : Policy} {s : Sys}
    (reach : Machine.Reaches callStep (Sys.init self policy 0) s) :
    Calm s.mgr ∧ ∀ t, s.mgr.Has t → t ∈ s.handles := by
  refine reach.invariant (I := fun u => Calm u.mgr ∧ ∀ t, u.mgr.Has t → t ∈ u.handles) ?_ ?_
  · have hsound := Sound.init self policy 0
    have hnone (t : Ptr) : ¬ (Sys.init self policy 0).mgr.Has t := fun ht =>
      absurd (hsound.serves.known t ht) List.not_mem_nil
    exact ⟨⟨hsound.serves.heap, fun t ht => absurd ht (hnone t), fun t ht => absurd ht (hnone t)⟩,
      hsound.serves.known⟩
  · intro u v c _ hu _ hstep
    exact callStep_calm hu.1 hu.2 hstep

/-- On a manager reached by adding timers of any time-outs, and by calls that have returned,
`Schedule` returns if and only if each of the periodic timers comes to an end. -/
theorem schedule_returns_iff {self : MgrPtr} {policy : Policy} {s : Sys}
    (reach : Machine.Reaches callStep (Sys.init self policy 0) s) (tid : ThreadId) (now : UInt64) :
    (∃ fuel, (scheduleLoop tid now fuel s.mgr).isSome = true) ↔
      ∀ t, s.mgr.Has t → (s.mgr.timers t).mOnce = false →
        ends s.mgr.policy now (s.mgr.timers t) = true := by
  obtain ⟨hcalm, -⟩ := calm_reaches reach
  constructor
  · rintro ⟨fuel, hfuel⟩ t hhas hperiodic
    by_contra hendless
    rw [Bool.not_eq_true] at hendless
    rw [loops_of_endless fuel hcalm ⟨hhas, hperiodic, hendless⟩] at hfuel
    cases hfuel
  · intro hends
    refine ⟨s.mgr.roundsLeft now + 1, returns_of_ends _ hcalm (fun t ht => ?_) (Nat.lt_succ_self _)⟩
    cases ht.endless.symm.trans (hends t ht.has ht.periodic)

def calmCalls : List Call := [.addTimer 7 0 5 false 3, .addTimer 8 0 0 true 4]

theorem schedule_returns_sample : ∃ s : Sys,
    Machine.exec callStep (Sys.init 1 .compensate 0) calmCalls = some s ∧
    s.mgr.members = [8, 7] ∧ ∃ fuel, (scheduleLoop 0 20 fuel s.mgr).isSome = true := by
  have h : (Machine.exec callStep (Sys.init 1 .compensate 0) calmCalls).map (fun s =>
      (s.mgr.members, (s.mgr.timers 8).mOnce, ends s.mgr.policy 20 (s.mgr.timers 7))) =
      some ([8, 7], true, true) := by decide
  obtain ⟨s, hs, hview⟩ := Option.map_eq_some_iff.mp h
  simp only [Prod.mk.injEq] at hview
  obtain ⟨hmembers, honce, hends⟩ := hview
  refine ⟨s, hs, hmembers, (schedule_returns_iff (.of_exec _ hs) 0 20).mpr fun t ht hperiodic => ?_⟩
  rw [← mem_members, hmembers] at ht
  rcases List.mem_cons.mp ht with rfl | ht
  · cases honce.symm.trans hperiodic
  · rw [List.mem_singleton.mp ht]
    exact hends

/-- A periodic timer of time-out 0 is due again as soon as it has been called. -/
theorem schedule_loops : ∃ s : Sys,
    Machine.exec callStep (Sys.init 1 .normal 0) [.addTimer 7 0 0 false 3] = some s ∧
    Machine.Reaches callStep (Sys.init 1 .normal 0) s ∧
    ¬ ∃ fuel, (scheduleLoop 0 0 fuel s.mgr).isSome = true := by
  have h : (Machine.exec callStep (Sys.init 1 .normal 0) [.addTimer 7 0 0 false 3]).map
      (fun s => (s.mgr.members, (s.mgr.timers 7).mOnce,
        ends s.mgr.policy 0 (s.mgr.timers 7))) = some ([7], false, false) := by decide
  obtain ⟨s, hs, hview⟩ := Option.map_eq_some_iff.mp h
  simp only [Prod.mk.injEq] at hview
  obtain ⟨hmembers, hperiodic, hendless⟩ := hview
  have hreach : Machine.Reaches callStep (Sys.init 1 .normal 0) s := .of_exec _ hs
  have hhas : s.mgr.Has 7 := by
    rw [← mem_members, hmembers]
    exact List.mem_singleton_self 7
  refine ⟨s, hs, hreach, ?_⟩
  rintro ⟨fuel, hfuel⟩
  rw [loops_of_endless fuel (calm_reaches hreach).1 ⟨hhas, hperiodic, hendless⟩] at hfuel
  cases hfuel

end Hwnet.TimerMgr
