import Hwnet.Machine
import Hwnet.TimerSift

set_option autoImplicit false

/-!
# The heap invariant of a timer manager

Every operation is specified once: it succeeds on a well-formed heap, keeps it well formed, and
changes the set of timers by the one it is about.
-/
namespace Hwnet.TimerMgr

open Timer

/-! ## The invariant -/

structure Kept (s : TimerMgr) : Prop extends Slots s where
  nulls : ∀ i, s.elementsSize < i → s.elem i = none
  owned : ∀ t, s.Has t → (s.timers t).selfPtr = some t
  outside : ∀ t, (s.timers t).mMgr = none ∨ (s.timers t).mMgr = some s.self → ¬ s.Has t →
    (s.timers t).mIndex = 0

structure Heap (s : TimerMgr) : Prop extends Kept s where
  ordered : BinaryHeap.Ordered s.key s.elementsSize

theorem Slots.of_has {s : TimerMgr} (h : Slots s) {t : Ptr} (ht : s.Has t) :
    1 ≤ (s.timers t).mIndex ∧ (s.timers t).mIndex ≤ s.elementsSize ∧
      s.elem (s.timers t).mIndex = some t ∧ (s.timers t).mMgr = some s.self := by
  obtain ⟨i, hi, hi', hti⟩ := ht
  obtain ⟨hidx, hmgr⟩ := h.index hi hi' hti
  rw [hidx]
  exact ⟨hi, hi', hti, hmgr⟩

theorem Kept.shuffled {s s' : TimerMgr} (h : Kept s) (h' : Slots s') (hsh : Shuffled s s') :
    Kept s' := by
  have hfield (t : Ptr) : (s'.timers t).selfPtr = (s.timers t).selfPtr := by
    obtain ⟨idx, ht⟩ := hsh.timers t
    rw [ht]
  refine ⟨h', fun i hi => ?_, fun t ht => ?_, fun t hm ht => ?_⟩
  · rw [hsh.size] at hi
    rw [hsh.beyond i hi]
    exact h.nulls i hi
  · rw [hfield]
    exact h.owned t ((hsh.has t).mp ht)
  · have hno : ¬ s.Has t := fun hh => ht ((hsh.has t).mpr hh)
    rw [hsh.outside t hno] at hm ⊢
    rw [hsh.owner.1] at hm
    exact h.outside t hm hno

/-! ## What an operation changes -/

structure Others (s s' : TimerMgr) (e : Ptr) : Prop where
  owner : s'.self = s.self ∧ s'.policy = s.policy
  timers : ∀ t, t ≠ e → ∃ idx, s'.timers t = { s.timers t with mIndex := idx }
  outside : ∀ t, t ≠ e → ¬ s.Has t → s'.timers t = s.timers t

theorem Others.trans {s s' s'' : TimerMgr} {e : Ptr} (h : Others s s' e) (h' : Others s' s'' e)
    (has : ∀ t, t ≠ e → s'.Has t → s.Has t) : Others s s'' e where
  owner := ⟨h'.owner.1.trans h.owner.1, h'.owner.2.trans h.owner.2⟩
  timers := fun t ht => by
    obtain ⟨i, hi⟩ := h.timers t ht
    obtain ⟨j, hj⟩ := h'.timers t ht
    exact ⟨j, by rw [hj, hi]⟩
  outside := fun t ht hno =>
    (h'.outside t ht fun hh => hno (has t ht hh)).trans (h.outside t ht hno)

structure Apart (s s' : TimerMgr) (e : Ptr) : Prop where
  size : s'.elementsSize = s.elementsSize
  owner : s'.self = s.self ∧ s'.policy = s.policy
  length : s'.elements.length = s.elements.length
  elem : ∀ i, i ≤ s.elementsSize → s'.elem i = s.elem i
  timers : ∀ t, t ≠ e → s'.timers t = s.timers t
  out : ¬ s.Has e

theorem Apart.has {s s' : TimerMgr} {e : Ptr} (h : Apart s s' e) (t : Ptr) :
    s'.Has t ↔ s.Has t := by
  constructor
  · rintro ⟨i, hi, hi', ht⟩
    rw [h.size] at hi'
    exact ⟨i, hi, hi', (h.elem i hi').symm.trans ht⟩
  · rintro ⟨i, hi, hi', ht⟩
    exact ⟨i, hi, by rw [h.size]; exact hi', (h.elem i hi').trans ht⟩

theorem Apart.slots {s s' : TimerMgr} {e : Ptr} (h : Apart s s' e) (hs : Slots s) : Slots s' where
  fits := by rw [h.size, h.length]; exact hs.fits
  used := by
    intro i hi hi'
    rw [h.size] at hi'
    obtain ⟨t, ht, hidx, hmgr⟩ := hs.used i hi hi'
    have hne : t ≠ e := fun hte => h.out ⟨i, hi, hi', hte ▸ ht⟩
    refine ⟨t, (h.elem i hi').trans ht, ?_, ?_⟩
    · rw [h.timers t hne]; exact hidx
    · rw [h.timers t hne, h.owner.1]; exact hmgr

theorem Apart.key {s s' : TimerMgr} {e : Ptr} (h : Apart s s' e) {i : ℕ} (pos : 1 ≤ i)
    (le : i ≤ s.elementsSize) : s'.key i = s.key i := by
  unfold TimerMgr.key
  rw [h.elem i le]
  cases ht : s.elem i with
  | none => rfl
  | some t =>
    have hne : t ≠ e := fun hte => h.out ⟨i, pos, le, hte ▸ ht⟩
    simp only [h.timers t hne]

structure Within (s s' : TimerMgr) (e : Ptr) : Prop where
  size : s'.elementsSize = s.elementsSize
  has : ∀ t, s'.Has t ↔ s.Has t
  others : Others s s' e

theorem Shuffled.within {s s' : TimerMgr} (h : Shuffled s s') (e : Ptr) : Within s s' e :=
  ⟨h.size, h.has, h.owner, fun t _ => h.timers t, fun t _ ht => h.outside t ht⟩

theorem Apart.within {s s' : TimerMgr} {e : Ptr} (h : Apart s s' e) : Within s s' e :=
  ⟨h.size, h.has, h.owner, fun t ht => ⟨(s.timers t).mIndex, h.timers t ht⟩,
    fun t ht _ => h.timers t ht⟩

theorem Within.trans {s s' s'' : TimerMgr} {e : Ptr} (h : Within s s' e) (h' : Within s' s'' e) :
    Within s s'' e :=
  ⟨h'.size.trans h.size, fun t => (h'.has t).trans (h.has t),
    h.others.trans h'.others fun t _ => (h.has t).mp⟩

/-! ## Taking a timer out -/

def dropLast (s : TimerMgr) : TimerMgr := { s with elementsSize := s.elementsSize - 1 }

theorem dropLast_slots {s : TimerMgr} (h : Slots s) : Slots s.dropLast where
  fits := (Nat.sub_le _ _).trans h.fits
  used := fun i hi hi' => h.used i hi (Nat.le_trans hi' (Nat.sub_le _ _))

theorem dropLast_has {s : TimerMgr} (h : Slots s) {e : Ptr} (pos : 0 < s.elementsSize)
    (last : s.elem s.elementsSize = some e) (t : Ptr) : s.dropLast.Has t ↔ s.Has t ∧ t ≠ e := by
  constructor
  · rintro ⟨i, hi, hi', ht⟩
    have hi'' : i ≤ s.elementsSize - 1 := hi'
    have hti : s.elem i = some t := ht
    refine ⟨⟨i, hi, by omega, hti⟩, fun hte => ?_⟩
    have := h.injective hi (by omega) pos (le_refl _) (hte ▸ hti) last
    omega
  · rintro ⟨⟨i, hi, hi', ht⟩, hne⟩
    have hlast : i ≠ s.elementsSize := fun hin => by
      rw [hin, last, Option.some.injEq] at ht
      exact hne ht.symm
    refine ⟨i, hi, ?_, ht⟩
    show i ≤ s.elementsSize - 1
    omega

/-- What `pop` and `remove` share: `s'` is well formed and has every timer but `e`. -/
structure Removed (s s' : TimerMgr) (e : Ptr) : Prop where
  heap : Heap s'
  size : s'.elementsSize + 1 = s.elementsSize
  has : ∀ t, s'.Has t ↔ s.Has t ∧ t ≠ e
  others : Others s s' e

/-- `e` has been exchanged into the last slot, the slot given up and the rest put in order. -/
theorem Kept.removed {s s₁ s' : TimerMgr} {e : Ptr} (h : Kept s) (h₁ : Slots s₁)
    (hsh : Shuffled s s₁) (pos : 0 < s₁.elementsSize) (last : s₁.elem s₁.elementsSize = some e)
    (rest : Within s₁.dropLast s' e) (slots : Slots s')
    (ordered : BinaryHeap.Ordered s'.key s'.elementsSize)
    (nulls : ∀ i, s'.elementsSize < i → s'.elem i = none)
    (index : (s'.timers e).mIndex = 0) : Removed s s' e := by
  have hhas (t : Ptr) : s'.Has t ↔ s.Has t ∧ t ≠ e := by
    rw [rest.has, dropLast_has h₁ pos last, hsh.has]
  have hothers : Others s s' e := by
    have hdrop : Others s s₁.dropLast e :=
      (hsh.within e).others.trans ⟨⟨rfl, rfl⟩, fun t _ => ⟨_, rfl⟩, fun _ _ _ => rfl⟩
        fun t _ => (hsh.has t).mp
    exact hdrop.trans rest.others fun t _ hh =>
      (hsh.has t).mp ((dropLast_has h₁ pos last t).mp hh).1
  refine ⟨⟨⟨slots, nulls, fun t ht => ?_, fun t hm ht => ?_⟩, ordered⟩, ?_, hhas, hothers⟩
  · obtain ⟨hs, hne⟩ := (hhas t).mp ht
    obtain ⟨idx, hidx⟩ := hothers.timers t hne
    rw [hidx]
    exact h.owned t hs
  · by_cases hte : t = e
    · rw [hte]; exact index
    · have hno : ¬ s.Has t := fun hs => ht ((hhas t).mpr ⟨hs, hte⟩)
      rw [hothers.outside t hte hno, hothers.owner.1] at hm
      rw [hothers.outside t hte hno]
      exact h.outside t hm hno
  · have hsize : s'.elementsSize = s₁.elementsSize - 1 := rest.size
    rw [hsh.size] at hsize pos
    omega

theorem Heap.root_le {s : TimerMgr} (h : Heap s) {e t : Ptr} (he : s.elem 1 = some e)
    (ht : s.Has t) : (s.timers e).mExpiredTime ≤ (s.timers t).mExpiredTime := by
  obtain ⟨i, hi, hi', hti⟩ := ht
  have hroot := h.ordered.root_le i hi hi'
  simp only [key, he, hti] at hroot
  exact UInt64.le_iff_toNat_le.mpr hroot

theorem pop_spec {s : TimerMgr} (h : Heap s) (pos : 0 < s.elementsSize) :
    ∃ e s', s.elem 1 = some e ∧ s.pop = some s' ∧ Removed s s' e ∧
      s'.timers e = { s.timers e with
        mIndex := 0
        mMgr := none
        selfPtr := none } := by
  obtain ⟨e, he, -⟩ := h.used 1 (le_refl _) pos
  obtain ⟨s₁, hswap, h₁, hsh, helem⟩ := swap_spec h.toSlots (le_refl _) pos pos (le_refl _)
  have hlast : s₁.elem s₁.elementsSize = some e := by
    rw [hsh.size, helem, BinaryHeap.swap]
    split
    · rename_i h1; rw [h1, he]
    · rw [if_pos rfl, he]
  have hpos₁ : 0 < s₁.elementsSize := by rw [hsh.size]; exact pos
  obtain ⟨idx, hidx⟩ := hsh.timers e
  let s₂ := ((s₁.setTimer e { s₁.timers e with
    mIndex := 0
    mMgr := none
    selfPtr := none }).setElem s₁.elementsSize none).dropLast
  have helem₂ (i : ℕ) : s₂.elem i = if i = s₁.elementsSize then none else s₁.elem i :=
    elem_setElem none hpos₁ h₁.fits i
  have hapart : Apart s₁.dropLast s₂ e := by
    refine ⟨rfl, ⟨rfl, rfl⟩, ?_, fun i hi => ?_, fun t ht => Function.update_of_ne ht _ _, ?_⟩
    · simp [s₂, dropLast, setElem, setTimer]
    · have hi' : i ≤ s₁.elementsSize - 1 := hi
      rw [helem₂, if_neg (by omega)]
      rfl
    · rw [dropLast_has h₁ hpos₁ hlast]
      exact fun hh => hh.2 rfl
  have hsize₂ : s₂.elementsSize = s.elementsSize - 1 := by
    rw [hapart.size, ← hsh.size]; rfl
  -- below the root the keys are those of before, so the root is the only hole
  have hkey (i : ℕ) (hne : i ≠ 1) (hi : i ≤ s₂.elementsSize) : s₂.key i = s.key i := by
    by_cases hzero : i = 0
    · rw [hzero]; rfl
    · have hdrop : s₁.dropLast.key i = s₁.key i := rfl
      rw [hapart.key (by omega) hi, hdrop, hsh.key_swap helem,
        BinaryHeap.swap_other _ hne (by omega)]
  have hhole : BinaryHeap.Hole s₂.key s₂.elementsSize 1 :=
    (h.ordered.shrink (by omega)).hole (by omega) hkey
  obtain ⟨s', hs', h', hsh', hord⟩ := down_spec (hapart.slots (dropLast_slots h₁)) (le_refl 1) hhole
    (by intro h2; omega)
  have hx : s'.timers e = { s.timers e with
      mIndex := 0
      mMgr := none
      selfPtr := none } := by
    rw [hsh'.outside e fun hh => hapart.out ((hapart.has e).mp hh)]
    exact (Function.update_self _ _ _).trans (by simp only [hidx])
  have hremoved := h.toKept.removed h₁ hsh hpos₁ hlast (hapart.within.trans (hsh'.within e)) h'
    (hsh'.size ▸ hord) (fun i hi => ?_) (by rw [hx])
  · refine ⟨e, s', he, ?_, hremoved, hx⟩
    simp only [pop, if_pos pos, he, hswap, Option.bind_eq_bind, Option.bind_some]
    exact hs'
  · rw [hsh'.size, hsize₂] at hi
    rw [hsh'.beyond i (by omega), helem₂]
    split
    · rfl
    · rename_i hne
      rw [hsh.size] at hne
      rw [hsh.beyond i (by omega)]
      exact h.nulls i (by omega)

/-- The gap in slot `idx` is filled by the last timer, or `e` was the last. -/
theorem unlink_spec {s : TimerMgr} (h : Heap s) {e : Ptr} (he : s.Has e) :
    ∃ s₁ s', s.unlink e = some s' ∧ Slots s₁ ∧ Shuffled s s₁ ∧
      s₁.elem s₁.elementsSize = some e ∧ Slots s' ∧ Shuffled s₁.dropLast s' ∧
      BinaryHeap.Ordered s'.key s'.elementsSize := by
  obtain ⟨hi, hi', hel, -⟩ := h.of_has he
  obtain ⟨tail, htail, htidx, -⟩ := h.used s.elementsSize (by omega) (le_refl _)
  simp only [unlink, htail, Option.bind_eq_bind, Option.bind_some]
  by_cases hte : tail = e
  · rw [if_pos hte]
    refine ⟨s, s.dropLast, rfl, h.toSlots, .refl s, by rw [htail, hte], dropLast_slots h.toSlots,
      .refl _, ?_⟩
    exact h.ordered.shrink (Nat.sub_le _ _)
  · obtain ⟨s₁, hswap, h₁, hsh, helem⟩ := swap_spec h.toSlots hi hi' (by omega) (le_refl _)
    have hne : (s.timers e).mIndex ≠ s.elementsSize := fun heq => by
      rw [heq, htail, Option.some.injEq] at hel
      exact hte hel
    have hlast : s₁.elem s₁.elementsSize = some e := by
      rw [hsh.size, helem, BinaryHeap.swap_right _ hne.symm, hel]
    have htail₁ : s₁.elem (s.timers e).mIndex = some tail := by
      rw [helem, BinaryHeap.swap_left, htail]
    have hsize : s₁.dropLast.elementsSize = s.elementsSize - 1 := by
      rw [dropLast, hsh.size]
    have hkey (i : ℕ) (hii : i ≠ (s.timers e).mIndex) (hin : i ≤ s₁.dropLast.elementsSize) :
        s₁.dropLast.key i = s.key i := by
      have hdrop : s₁.dropLast.key i = s₁.key i := rfl
      rw [hdrop, hsh.key_swap helem, BinaryHeap.swap_other _ hii (by omega)]
    have hhole : BinaryHeap.Hole s₁.dropLast.key s₁.dropLast.elementsSize (s.timers e).mIndex :=
      (h.ordered.shrink (by omega)).hole (by omega) hkey
    obtain ⟨s', hs', h', hsh', hord⟩ := change_spec (dropLast_slots h₁) hi
      (by rw [hsize]; omega) htail₁ hhole
    refine ⟨s₁, s', ?_, h₁, hsh, hlast, h', hsh', hsh'.size ▸ hord⟩
    rw [if_neg hte, htidx, hswap]
    exact hs'

theorem remove_spec {s : TimerMgr} (h : Heap s) {e : Ptr} (he : s.Has e) :
    ∃ s', s.remove e = some (s', true) ∧ Removed s s' e ∧
      s'.timers e = { s.timers e with
        mIndex := 0
        mCallback := none
        selfPtr := some e } := by
  obtain ⟨hi, hi', hel, hmgr⟩ := h.of_has he
  obtain ⟨s₁, s₂, hs₂, h₁, hsh, hlast, h₂, hsh₂, hord⟩ := unlink_spec h he
  have hsize : s₂.elementsSize = s.elementsSize - 1 := by
    rw [hsh₂.size, dropLast, hsh.size]
  have hpos₁ : 0 < s₁.elementsSize := by rw [hsh.size]; omega
  have hlen : s₂.elements.length = s.elements.length := hsh₂.length.trans hsh.length
  have hfits := h.fits
  let s' := (s₂.setElem (s₂.elementsSize + 1) none).setTimer e { s₂.timers e with
    mIndex := 0
    mCallback := none
    selfPtr := some e }
  have helem (i : ℕ) : s'.elem i = if i = s₂.elementsSize + 1 then none else s₂.elem i :=
    (elem_setTimer _ _ _ i).trans (elem_setElem none (by omega) (by omega) i)
  have hapart : Apart s₂ s' e := by
    refine ⟨rfl, ⟨rfl, rfl⟩, ?_, fun i hi => ?_, fun t ht => Function.update_of_ne ht _ _, ?_⟩
    · simp [s', setElem, setTimer]
    · rw [helem, if_neg (by omega)]
    · rw [hsh₂.has, dropLast_has h₁ hpos₁ hlast]
      exact fun hh => hh.2 rfl
  have hx : s'.timers e = { s.timers e with
      mIndex := 0
      mCallback := none
      selfPtr := some e } := by
    obtain ⟨idx, hidx⟩ := hsh.timers e
    obtain ⟨idx', hidx'⟩ := hsh₂.timers e
    have hdrop : s₁.dropLast.timers e = s₁.timers e := rfl
    rw [hdrop, hidx] at hidx'
    exact (Function.update_self _ _ _).trans (by rw [hidx'])
  have hord' : BinaryHeap.Ordered s'.key s'.elementsSize := by
    intro i h2 hi
    rw [hapart.key (by omega) hi, hapart.key (by omega) (Nat.le_trans (Nat.div_le_self i 2) hi)]
    exact hord i h2 hi
  have hremoved := h.toKept.removed h₁ hsh hpos₁ hlast ((hsh₂.within e).trans hapart.within)
    (hapart.slots h₂) hord' (fun i hi => ?_) (by rw [hx])
  · refine ⟨s', ?_, hremoved, hx⟩
    have hin : ¬ ((s.timers e).mIndex = 0 ∨ s.elementsSize < (s.timers e).mIndex ∨
        s.elem (s.timers e).mIndex ≠ some e) := by
      rintro (h0 | hlt | hn)
      · omega
      · omega
      · exact hn hel
    simp only [remove, if_pos hmgr, if_neg hin, hs₂, Option.bind_eq_bind, Option.bind_some]
    rfl
  · have hi₂ : s₂.elementsSize < i := hi
    rw [helem]
    split
    · rfl
    · have hdrop : s₁.dropLast.elem i = s₁.elem i := rfl
      have hsize' : s₁.dropLast.elementsSize = s₂.elementsSize := hsh₂.size.symm
      rw [hsh₂.beyond i (by omega), hdrop, hsh.beyond i (by omega)]
      exact h.nulls i (by omega)

theorem remove_absent {s : TimerMgr} (h : Heap s) {e : Ptr} (he : ¬ s.Has e) :
    s.remove e = some (s, false) := by
  unfold remove
  dsimp only
  split
  · rename_i hmgr
    rw [if_pos (.inl (h.outside e (.inr hmgr) he))]
  · rfl

/-! ## Putting a timer in -/

def setExpired (s : TimerMgr) (e : Ptr) (x : UInt64) : TimerMgr :=
  s.setTimer e { s.timers e with mExpiredTime := x }

structure Inserted (s s' : TimerMgr) (e : Ptr) : Prop where
  heap : Heap s'
  has : ∀ t, s'.Has t ↔ s.Has t ∨ t = e
  others : Others s s' e

theorem setTimer_self (s : TimerMgr) (e : Ptr) (x : Timer) : (s.setTimer e x).timers e = x :=
  Function.update_self _ _ _

theorem setTimer_of_ne (s : TimerMgr) {e t : Ptr} (x : Timer) (ne : t ≠ e) :
    (s.setTimer e x).timers t = s.timers t :=
  Function.update_of_ne ne _ _

theorem setTimer_has (s : TimerMgr) (e : Ptr) (x : Timer) (t : Ptr) :
    (s.setTimer e x).Has t ↔ s.Has t := by
  constructor
  · rintro ⟨i, hi, hi', ht⟩
    exact ⟨i, hi, hi', (elem_setTimer _ _ _ i).symm.trans ht⟩
  · rintro ⟨i, hi, hi', ht⟩
    exact ⟨i, hi, hi', (elem_setTimer _ _ _ i).trans ht⟩

/-- Fields other than the back-pointers may change freely. -/
theorem setTimer_slots {s : TimerMgr} (h : Slots s) {e : Ptr} {x : Timer}
    (index : x.mIndex = (s.timers e).mIndex) (mgr : x.mMgr = (s.timers e).mMgr) :
    Slots (s.setTimer e x) where
  fits := h.fits
  used := by
    intro i hi hi'
    obtain ⟨t, ht, hidx, hmgr⟩ := h.used i hi hi'
    refine ⟨t, (elem_setTimer _ _ _ i).trans ht, ?_⟩
    by_cases hte : t = e
    · rw [hte, setTimer_self, index, mgr, ← hte]
      exact ⟨hidx, hmgr⟩
    · rw [setTimer_of_ne s x hte]
      exact ⟨hidx, hmgr⟩

theorem setTimer_key {s : TimerMgr} {e : Ptr} {x : Timer} {i : ℕ}
    (same : s.elem i = some e → x.mExpiredTime = (s.timers e).mExpiredTime) :
    (s.setTimer e x).key i = s.key i := by
  unfold key
  rw [elem_setTimer]
  cases ht : s.elem i with
  | none => rfl
  | some t =>
    by_cases hte : t = e
    · simp only [hte, setTimer_self, same (hte ▸ ht)]
    · simp only [setTimer_of_ne s x hte]

/-- What is no business of the heap may be assigned at any time. -/
theorem Heap.setTimer {s : TimerMgr} (h : Heap s) {e : Ptr} {x : Timer}
    (index : x.mIndex = (s.timers e).mIndex) (mgr : x.mMgr = (s.timers e).mMgr)
    (selfPtr : x.selfPtr = (s.timers e).selfPtr)
    (expired : x.mExpiredTime = (s.timers e).mExpiredTime) : Heap (s.setTimer e x) := by
  refine ⟨⟨setTimer_slots h.toSlots index mgr, fun i hi => ?_, fun t ht => ?_, fun t hm ht => ?_⟩,
    fun i h2 hi => ?_⟩
  · exact (elem_setTimer _ _ _ i).trans (h.nulls i hi)
  · have hs := h.owned t ((setTimer_has _ _ _ t).mp ht)
    by_cases hte : t = e
    · rw [hte, setTimer_self, selfPtr, ← hte]; exact hs
    · rw [setTimer_of_ne _ _ hte]; exact hs
  · have hno : ¬ s.Has t := fun hs => ht ((setTimer_has _ _ _ t).mpr hs)
    by_cases hte : t = e
    · rw [hte, setTimer_self, mgr, ← hte] at hm
      rw [hte, setTimer_self, index, ← hte]
      exact h.outside t hm hno
    · rw [setTimer_of_ne _ _ hte] at hm ⊢
      exact h.outside t hm hno
  · rw [setTimer_key fun _ => expired, setTimer_key fun _ => expired]
    exact h.ordered i h2 hi

theorem setTimer_apart {s : TimerMgr} {e : Ptr} (out : ¬ s.Has e) (x : Timer) :
    Apart s (s.setTimer e x) e where
  size := rfl
  owner := ⟨rfl, rfl⟩
  length := rfl
  elem := fun i _ => elem_setTimer s e x i
  timers := fun _ ht => setTimer_of_ne s x ht
  out := out

/-- The record of a timer without a slot is not part of the heap. -/
theorem Heap.setTimer_out {s : TimerMgr} (h : Heap s) {e : Ptr} {x : Timer} (out : ¬ s.Has e)
    (index : x.mMgr = none ∨ x.mMgr = some s.self → x.mIndex = 0) : Heap (s.setTimer e x) := by
  have hapart := setTimer_apart out x
  have hne {t : Ptr} (ht : (s.setTimer e x).Has t) : t ≠ e := fun hte =>
    out ((setTimer_has _ _ _ e).mp (hte ▸ ht))
  refine ⟨⟨hapart.slots h.toSlots, fun i hi => ?_, fun t ht => ?_, fun t hm ht => ?_⟩,
    fun i h2 hi => ?_⟩
  · exact (elem_setTimer _ _ _ i).trans (h.nulls i hi)
  · rw [setTimer_of_ne s x (hne ht)]
    exact h.owned t ((setTimer_has _ _ _ t).mp ht)
  · have hno : ¬ s.Has t := fun hs => ht ((setTimer_has _ _ _ t).mpr hs)
    by_cases hte : t = e
    · rw [hte, setTimer_self] at hm ⊢
      exact index hm
    · rw [setTimer_of_ne s x hte] at hm ⊢
      exact h.outside t hm hno
  · have hi' : i ≤ s.elementsSize := hi
    rw [hapart.key (by omega) hi', hapart.key (by omega) (by omega)]
    exact h.ordered i h2 hi'

theorem setTimer_others (s : TimerMgr) (e : Ptr) (x : Timer) : Others s (s.setTimer e x) e :=
  ⟨⟨rfl, rfl⟩, fun t ht => ⟨(s.timers t).mIndex, setTimer_of_ne s x ht⟩,
    fun _ ht _ => setTimer_of_ne s x ht⟩

theorem insert_of_has {s : TimerMgr} {e : Ptr} (h : Slots s) (he : s.Has e) :
    s.insert e = (s.change e).map (·, true) := by
  obtain ⟨hi, hi', hel, hmgr⟩ := h.of_has he
  have hin : ¬ (s.elementsSize < (s.timers e).mIndex ∨ s.elem (s.timers e).mIndex ≠ some e) := by
    rintro (hlt | hn)
    · omega
    · exact hn hel
  unfold insert
  dsimp only
  rw [if_neg (fun hh => hh.2 hmgr), if_pos (Nat.lt_of_succ_le hi), if_neg hin]
  cases s.change e <;> rfl

/-- A timer that is in the heap already: its key has changed in place. -/
theorem reinsert_spec {s : TimerMgr} (h : Heap s) {e : Ptr} (he : s.Has e) (x : UInt64) :
    ∃ s' idx, (s.setExpired e x).insert e = some (s', true) ∧ Inserted s s' e ∧
      s'.timers e = { s.timers e with
        mExpiredTime := x
        mMgr := some s.self
        mIndex := idx
        selfPtr := some e } := by
  obtain ⟨hi, hi', hel, hmgr⟩ := h.of_has he
  have hself := h.owned e he
  let s₀ := s.setExpired e x
  have hx : s₀.timers e = { s.timers e with mExpiredTime := x } := setTimer_self _ _ _
  have hto {t : Ptr} (ht : t ≠ e) : s₀.timers t = s.timers t := setTimer_of_ne _ _ ht
  have h₀ : Slots s₀ := setTimer_slots h.toSlots rfl rfl
  have hkept : Kept s₀ := by
    refine ⟨h₀, fun i hi => ?_, fun t ht => ?_, fun t hm ht => ?_⟩
    · exact (elem_setTimer _ _ _ i).trans (h.nulls i hi)
    · have hs := h.owned t ((setTimer_has _ _ _ t).mp ht)
      by_cases hte : t = e
      · rw [hte, hx]; exact hself
      · rw [hto hte]; exact hs
    · have hno : ¬ s.Has t := fun hs => ht ((setTimer_has _ _ _ t).mpr hs)
      have hte : t ≠ e := fun hte => hno (hte ▸ he)
      rw [hto hte] at hm ⊢
      exact h.outside t hm hno
  have hel₀ : s₀.elem (s.timers e).mIndex = some e := (elem_setTimer _ _ _ _).trans hel
  have hkey (i : ℕ) (hne : i ≠ (s.timers e).mIndex) (hle : i ≤ s.elementsSize) :
      s₀.key i = s.key i := by
    refine setTimer_key fun hie => ?_
    by_cases hzero : i = 0
    · rw [hzero] at hie; cases hie
    · exact absurd (h.injective (by omega) hle hi hi' hie hel) hne
  have hhole : BinaryHeap.Hole s₀.key s₀.elementsSize (s.timers e).mIndex :=
    h.ordered.hole (fun _ => hi') hkey
  obtain ⟨s', hs', h', hsh, hord⟩ := change_spec h₀ hi hi' hel₀ hhole
  obtain ⟨idx, hidx⟩ := hsh.timers e
  refine ⟨s', idx, ?_, ⟨⟨hkept.shuffled h' hsh, hsh.size ▸ hord⟩, fun t => ?_, ?_⟩, ?_⟩
  · have he₀ : s₀.Has e := (setTimer_has _ _ _ e).mpr he
    rw [show (s.setExpired e x).insert e = _ from insert_of_has h₀ he₀, hs']
    rfl
  · rw [hsh.has]
    refine (setTimer_has _ _ _ t).trans ⟨.inl, ?_⟩
    rintro (ht | rfl)
    · exact ht
    · exact he
  · refine ⟨hsh.owner, fun t ht => ?_, fun t ht hno => ?_⟩
    · obtain ⟨j, hj⟩ := hsh.timers t
      rw [hto ht] at hj
      exact ⟨j, hj⟩
    · rw [hsh.outside t fun hh => hno ((setTimer_has _ _ _ t).mp hh)]
      exact hto ht
  · rw [hidx, hx]
    simp only [hmgr, hself]

theorem append_elem {s : TimerMgr} (h : Heap s) (e : Ptr) (i : ℕ) :
    (s.append e).elem i = if i = s.elementsSize + 1 then some e else s.elem i := by
  have hfits := h.fits
  cases i with
  | zero => rw [if_neg (by omega)]; rfl
  | succ i =>
    simp only [append, elem]
    by_cases hlen : s.elementsSize = s.elements.length
    · rw [if_pos hlen, List.getElem?_append]
      by_cases hi : i < s.elements.length
      · rw [if_pos hi, if_neg (by omega)]
      · rw [if_neg hi]
        by_cases hin : i = s.elements.length
        · rw [hin, if_pos (by omega)]; simp
        · rw [if_neg (by omega), List.getElem?_eq_none (by simp; omega),
            List.getElem?_eq_none (by omega)]
    · rw [if_neg hlen, List.getElem?_set]
      by_cases hin : s.elementsSize = i
      · rw [if_pos hin, if_pos (by omega), if_pos (by omega)]; rfl
      · rw [if_neg hin, if_neg (by omega)]

theorem append_low {s : TimerMgr} (h : Heap s) (e : Ptr) {i : ℕ} (hi : i ≤ s.elementsSize) :
    (s.append e).elem i = s.elem i := by
  rw [append_elem h, if_neg (by omega)]

theorem append_self (s : TimerMgr) (e : Ptr) : (s.append e).timers e = { s.timers e with
    mMgr := some s.self
    mIndex := s.elementsSize + 1 } :=
  setTimer_self _ _ _

theorem append_of_ne (s : TimerMgr) {e t : Ptr} (ne : t ≠ e) :
    (s.append e).timers t = s.timers t :=
  setTimer_of_ne _ _ ne

theorem append_has {s : TimerMgr} (h : Heap s) (e t : Ptr) :
    (s.append e).Has t ↔ s.Has t ∨ t = e := by
  constructor
  · rintro ⟨i, hi, hi', ht⟩
    rw [append_elem h] at ht
    split at ht
    · exact .inr (Option.some.inj ht).symm
    · have hsize : i ≤ s.elementsSize + 1 := hi'
      exact .inl ⟨i, hi, by omega, ht⟩
  · rintro (⟨i, hi, hi', ht⟩ | rfl)
    · exact ⟨i, hi, Nat.le_succ_of_le hi', by rw [append_low h _ hi', ht]⟩
    · exact ⟨s.elementsSize + 1, by omega, le_refl _, by rw [append_elem h, if_pos rfl]⟩

theorem ne_of_elem {s : TimerMgr} {e t : Ptr} (he : ¬ s.Has e) {i : ℕ} (hi : 1 ≤ i)
    (hi' : i ≤ s.elementsSize) (ht : s.elem i = some t) : t ≠ e :=
  fun hte => he ⟨i, hi, hi', hte ▸ ht⟩

theorem append_slots {s : TimerMgr} (h : Heap s) {e : Ptr} (he : ¬ s.Has e) :
    Slots (s.append e) := by
  have hfits := h.fits
  refine ⟨?_, fun i hi hi' => ?_⟩
  · simp only [append]
    split
    · simp; omega
    · simp; omega
  · by_cases hin : i = s.elementsSize + 1
    · exact ⟨e, by rw [append_elem h, if_pos hin], by rw [append_self, hin],
        by rw [append_self]; rfl⟩
    · have hold : i ≤ s.elementsSize := by
        have hsize : i ≤ s.elementsSize + 1 := hi'
        omega
      obtain ⟨t, ht, hidx, hmgr⟩ := h.used i hi hold
      have hto := append_of_ne s (ne_of_elem he hi hold ht)
      exact ⟨t, by rw [append_low h _ hold, ht], by rw [hto, hidx], by rw [hto]; exact hmgr⟩

theorem append_key {s : TimerMgr} (h : Heap s) {e : Ptr} (he : ¬ s.Has e) (i : ℕ)
    (hi : i ≤ s.elementsSize) : (s.append e).key i = s.key i := by
  unfold key
  rw [append_low h _ hi]
  cases ht : s.elem i with
  | none => rfl
  | some t =>
    by_cases hi0 : i = 0
    · rw [hi0] at ht; cases ht
    · simp only [append_of_ne s (ne_of_elem he (by omega) hi ht)]

theorem newInsert_spec {s : TimerMgr} (h : Heap s) {e : Ptr}
    (free : (s.timers e).mMgr = none ∨ (s.timers e).mMgr = some s.self) (he : ¬ s.Has e) :
    ∃ s' idx, s.insert e = some (s', true) ∧ Inserted s s' e ∧
      s'.timers e = { s.timers e with
        mMgr := some s.self
        mIndex := idx
        selfPtr := some e } := by
  have hzero := h.outside e free he
  let s₁ := s.append e
  have hsize : s₁.elementsSize = s.elementsSize + 1 := rfl
  have h₁ : Slots s₁ := append_slots h he
  obtain ⟨hhole, hbelow⟩ := h.ordered.push (append_key h he)
  obtain ⟨s₂, hs₂, h₂, hsh, hord⟩ := up_spec h₁ (by omega) (le_refl _) hhole hbelow
  obtain ⟨idx, hidx⟩ := hsh.timers e
  let s' := s₂.setTimer e { s₂.timers e with selfPtr := some e }
  have hhas (t : Ptr) : s'.Has t ↔ s.Has t ∨ t = e :=
    (setTimer_has _ _ _ t).trans ((hsh.has t).trans (append_has h e t))
  have hothers : Others s s' e := by
    refine ⟨hsh.owner, fun t ht => ?_, fun t ht hno => ?_⟩
    · obtain ⟨j, hj⟩ := hsh.timers t
      exact ⟨j, by rw [setTimer_of_ne _ _ ht, hj, append_of_ne s ht]⟩
    · have hno₁ : ¬ s₁.Has t := fun hh => ((append_has h e t).mp hh).elim hno ht
      rw [setTimer_of_ne _ _ ht, hsh.outside t hno₁, append_of_ne s ht]
  have hxe : s'.timers e = { s.timers e with
      mMgr := some s.self
      mIndex := idx
      selfPtr := some e } := by
    rw [setTimer_self, hidx, append_self]
  refine ⟨s', idx, ?_, ⟨⟨⟨setTimer_slots h₂ rfl rfl, fun i hi => ?_, fun t ht => ?_,
    fun t hm ht => ?_⟩, fun i h2 hi => ?_⟩, hhas, hothers⟩, hxe⟩
  · have hfree : ¬ ((s.timers e).mMgr ≠ none ∧ (s.timers e).mMgr ≠ some s.self) :=
      fun hh => free.elim hh.1 hh.2
    unfold insert
    dsimp only
    have hup : (s.append e).up (s.elementsSize + 1) = some s₂ := hs₂
    rw [if_neg hfree, if_neg (by omega), hup]
    rfl
  · have hi₂ : s₁.elementsSize < i := hsh.size ▸ hi
    rw [elem_setTimer, hsh.beyond i hi₂, append_elem h, if_neg (by omega)]
    exact h.nulls i (by omega)
  · by_cases hte : t = e
    · rw [hte, hxe]
    · obtain ⟨j, hj⟩ := hothers.timers t hte
      rw [hj]
      exact h.owned t (((hhas t).mp ht).resolve_right hte)
  · have hte : t ≠ e := fun hte => ht ((hhas t).mpr (.inr hte))
    have hno : ¬ s.Has t := fun hs => ht ((hhas t).mpr (.inl hs))
    rw [hothers.outside t hte hno, hothers.owner.1] at hm
    rw [hothers.outside t hte hno]
    exact h.outside t hm hno
  · have hkey' (j : ℕ) : s'.key j = s₂.key j := setTimer_key fun _ => rfl
    rw [hkey', hkey']
    exact hord i h2 (hsh.size ▸ hi)

theorem insert_spec {s : TimerMgr} (h : Heap s) {e : Ptr}
    (free : (s.timers e).mMgr = none ∨ (s.timers e).mMgr = some s.self) (x : UInt64) :
    ∃ s' idx, (s.setExpired e x).insert e = some (s', true) ∧ Inserted s s' e ∧
      s'.timers e = { s.timers e with
        mExpiredTime := x
        mMgr := some s.self
        mIndex := idx
        selfPtr := some e } := by
  by_cases he : s.Has e
  · exact reinsert_spec h he x
  · -- the expiry of a timer without a slot is not part of the heap
    let s₀ := s.setExpired e x
    have hx : s₀.timers e = { s.timers e with mExpiredTime := x } := setTimer_self _ _ _
    have hto {t : Ptr} (ht : t ≠ e) : s₀.timers t = s.timers t := setTimer_of_ne _ _ ht
    have h₀ : Heap s₀ := h.setTimer_out he fun _ => h.outside e free he
    have hfree : (s₀.timers e).mMgr = none ∨ (s₀.timers e).mMgr = some s₀.self := by
      rw [hx]; exact free
    obtain ⟨s', idx, hs', hins, hxe⟩ := newInsert_spec h₀ hfree fun hh =>
      he ((setTimer_has _ _ _ e).mp hh)
    refine ⟨s', idx, hs', ⟨hins.heap, fun t => ?_, ⟨hins.others.owner, fun t ht => ?_,
      fun t ht hno => ?_⟩⟩, ?_⟩
    · exact (hins.has t).trans (or_congr_left (setTimer_has _ _ _ t))
    · obtain ⟨j, hj⟩ := hins.others.timers t ht
      exact ⟨j, by rw [hj, hto ht]⟩
    · have hno₀ : ¬ s₀.Has t := fun hh => hno ((setTimer_has _ _ _ t).mp hh)
      rw [hins.others.outside t ht hno₀, hto ht]
    · rw [hxe, hx]
      rfl

/-! ## Sequences of operations -/

/-- `insert` stands for both of its uses: the timer, new or in the heap, has been given an
expiry. -/
inductive Op where
  | insert (e : Ptr) (expiredTime : UInt64)
  | pop
  | remove (e : Ptr)
  deriving DecidableEq, Repr

def Allowed (s : TimerMgr) : Op → Prop
  | .insert e _ => (s.timers e).mMgr = none ∨ (s.timers e).mMgr = some s.self
  | _ => True

instance (s : TimerMgr) (op : Op) : Decidable (Allowed s op) := by
  cases op <;> unfold Allowed <;> infer_instance

def apply (s : TimerMgr) : Op → Option TimerMgr
  | .insert e x => ((s.setExpired e x).insert e).map Prod.fst
  | .pop => s.pop
  | .remove e => (s.remove e).map Prod.fst

def opStep (s : TimerMgr) (op : Op) : Option TimerMgr :=
  if Allowed s op then s.apply op else none

/-- A manager before its first operation; other managers may hold timers of the memory. -/
structure Fresh (s : TimerMgr) : Prop where
  size : s.elementsSize = 0
  elements : s.elements = []
  timers : ∀ t, (s.timers t).mMgr ≠ some s.self ∧
    ((s.timers t).mMgr = none → (s.timers t).mIndex = 0)

structure WellFormed (s : TimerMgr) : Prop where
  slots : ∀ i, 1 ≤ i → i ≤ s.elementsSize → ∃ t, s.elem i = some t ∧
    (s.timers t).mIndex = i ∧ (s.timers t).mMgr = some s.self
  distinct : ∀ i j t, 1 ≤ i → i ≤ s.elementsSize → 1 ≤ j → j ≤ s.elementsSize →
    s.elem i = some t → s.elem j = some t → i = j
  parent : ∀ i t p, 2 ≤ i → i ≤ s.elementsSize → s.elem i = some t → s.elem (i / 2) = some p →
    (s.timers p).mExpiredTime ≤ (s.timers t).mExpiredTime
  nulls : ∀ i, s.elementsSize < i → s.elem i = none

def Changes (s s' : TimerMgr) : Op → Prop
  | .insert e _ => ∀ t, s'.Has t ↔ s.Has t ∨ t = e
  | .pop => s.elementsSize = 0 ∧ s' = s ∨
      ∃ e, s.Has e ∧ (∀ t, s.Has t → (s.timers e).mExpiredTime ≤ (s.timers t).mExpiredTime) ∧
        ∀ t, s'.Has t ↔ s.Has t ∧ t ≠ e
  | .remove e => ∀ t, s'.Has t ↔ s.Has t ∧ t ≠ e

theorem Fresh.heap {s : TimerMgr} (h : Fresh s) : Heap s := by
  have hnone (t : Ptr) : ¬ s.Has t := by
    rintro ⟨i, hi, hi', -⟩
    rw [h.size] at hi'
    omega
  refine ⟨⟨⟨?_, fun i hi hi' => ?_⟩, fun i _ => ?_, fun t ht => absurd ht (hnone t),
    fun t hm _ => ?_⟩, fun i h2 hi => ?_⟩
  · rw [h.size]; exact Nat.zero_le _
  · rw [h.size] at hi'; omega
  · cases i with
    | zero => rfl
    | succ i => simp [elem, h.elements]
  · exact (h.timers t).2 (hm.resolve_right (h.timers t).1)
  · rw [h.size] at hi; omega

theorem Heap.wellFormed {s : TimerMgr} (h : Heap s) : WellFormed s where
  slots := h.used
  distinct := fun _ _ _ hi hi' hj hj' => h.injective hi hi' hj hj'
  parent := by
    intro i t p h2 hi ht hp
    have hord := h.ordered i h2 hi
    simp only [key, ht, hp] at hord
    exact UInt64.le_iff_toNat_le.mpr hord
  nulls := h.nulls

theorem Heap.apply {s : TimerMgr} (h : Heap s) {op : Op} (ok : Allowed s op) :
    ∃ s', s.apply op = some s' ∧ Heap s' ∧ Changes s s' op := by
  cases op with
  | insert e x =>
    obtain ⟨s', idx, hs', hins, -⟩ := insert_spec h ok x
    exact ⟨s', by rw [TimerMgr.apply, hs']; rfl, hins.heap, hins.has⟩
  | pop =>
    by_cases hpos : 0 < s.elementsSize
    · obtain ⟨e, s', he, hs', hrem, -⟩ := pop_spec h hpos
      refine ⟨s', hs', hrem.heap, .inr ⟨e, ⟨1, le_refl _, hpos, he⟩, fun t ht => ?_, hrem.has⟩⟩
      exact h.root_le he ht
    · exact ⟨s, if_neg hpos, h, .inl ⟨by omega, rfl⟩⟩
  | remove e =>
    by_cases he : s.Has e
    · obtain ⟨s', hs', hrem, -⟩ := remove_spec h he
      exact ⟨s', by rw [TimerMgr.apply, hs']; rfl, hrem.heap, hrem.has⟩
    · refine ⟨s, by rw [TimerMgr.apply, remove_absent h he]; rfl, h, fun t => ?_⟩
      exact ⟨fun ht => ⟨ht, fun hte => he (hte ▸ ht)⟩, And.left⟩

theorem Fresh.reaches {s₀ s : TimerMgr} (fresh : Fresh s₀) (h : Machine.Reaches opStep s₀ s) :
    Heap s := by
  refine h.invariant (I := Heap) fresh.heap fun u v op _ hu _ hstep => ?_
  unfold opStep at hstep
  split at hstep
  · rename_i ok
    obtain ⟨v', hv', hheap, -⟩ := hu.apply ok
    rw [hv', Option.some.injEq] at hstep
    exact hstep ▸ hheap
  · cases hstep

/-- After every sequence of operations the heap is well formed, and the next operation succeeds and
changes the set of timers by the one it is about. -/
theorem timer_heap {s₀ s : TimerMgr} (fresh : Fresh s₀) (h : Machine.Reaches opStep s₀ s) :
    WellFormed s ∧ ∀ op, Allowed s op →
      ∃ s', s.apply op = some s' ∧ WellFormed s' ∧ Changes s s' op := by
  have inv := fresh.reaches h
  refine ⟨inv.wellFormed, fun op ok => ?_⟩
  obtain ⟨s', hs', hheap, hchange⟩ := inv.apply ok
  exact ⟨s', hs', hheap.wellFormed, hchange⟩

theorem fresh_new (self : MgrPtr) (policy : Policy) (timers : Ptr → Timer)
    (outside : ∀ t, (timers t).mMgr = none ∧ (timers t).mIndex = 0) :
    Fresh (TimerMgr.new self policy timers) where
  size := rfl
  elements := rfl
  timers := fun t => ⟨by rw [TimerMgr.new, (outside t).1]; exact nofun, fun _ => (outside t).2⟩

def sampleOps : List Op :=
  [.insert 0 5, .insert 1 3, .insert 2 3, .insert 3 8, .insert 3 1, .remove 1, .pop, .insert 1 4]

theorem timer_heap_sample : ∃ s : TimerMgr,
    Machine.exec opStep (TimerMgr.new 1 .normal fun _ => Timer.new 0 1 false 0) sampleOps = some s ∧
    s.elements = [some 2, some 0, some 1, none] ∧
    WellFormed s ∧ ∀ op, Allowed s op →
      ∃ s', s.apply op = some s' ∧ WellFormed s' ∧ Changes s s' op := by
  have h : (Machine.exec opStep (TimerMgr.new 1 .normal fun _ => Timer.new 0 1 false 0)
      sampleOps).map TimerMgr.elements = some [some 2, some 0, some 1, none] := rfl
  obtain ⟨s, hs, helems⟩ := Option.map_eq_some_iff.mp h
  exact ⟨s, hs, helems, timer_heap (fresh_new _ _ _ fun _ => ⟨rfl, rfl⟩)
    (Machine.Reaches.of_exec _ hs)⟩

end Hwnet.TimerMgr
