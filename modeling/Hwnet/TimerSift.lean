import Hwnet.BinaryHeap
import Hwnet.TimerMgr

set_option autoImplicit false

/-!
# Sifting in a timer manager

`swap`, `down`, `up` and `change` exchange slots in use together with the back-pointers of their
timers. None of them dereferences null, and each ends with the order its caller needs.
-/
namespace Hwnet.TimerMgr

open Timer

def key (s : TimerMgr) (idx : ℕ) : ℕ :=
  match s.elem idx with
  | some t => (s.timers t).mExpiredTime.toNat
  | none => 0

def Has (s : TimerMgr) (t : Ptr) : Prop := ∃ i, 1 ≤ i ∧ i ≤ s.elementsSize ∧ s.elem i = some t

/-- The slots in use and the back-pointers of their timers. -/
structure Slots (s : TimerMgr) : Prop where
  fits : s.elementsSize ≤ s.elements.length
  used : ∀ i, 1 ≤ i → i ≤ s.elementsSize → ∃ t, s.elem i = some t ∧
    (s.timers t).mIndex = i ∧ (s.timers t).mMgr = some s.self

theorem Slots.index {s : TimerMgr} (h : Slots s) {i : ℕ} {t : Ptr} (pos : 1 ≤ i)
    (le : i ≤ s.elementsSize) (ht : s.elem i = some t) :
    (s.timers t).mIndex = i ∧ (s.timers t).mMgr = some s.self := by
  obtain ⟨u, hu, hi, hm⟩ := h.used i pos le
  rw [ht, Option.some.injEq] at hu
  rw [hu]
  exact ⟨hi, hm⟩

theorem Slots.injective {s : TimerMgr} (h : Slots s) {i j : ℕ} {t : Ptr} (hi : 1 ≤ i)
    (hi' : i ≤ s.elementsSize) (hj : 1 ≤ j) (hj' : j ≤ s.elementsSize) (ht : s.elem i = some t)
    (ht' : s.elem j = some t) : i = j :=
  (h.index hi hi' ht).1.symm.trans (h.index hj hj' ht').1

/-- Some slots in use have been exchanged: nothing else differs but back-pointers. -/
structure Shuffled (s s' : TimerMgr) : Prop where
  size : s'.elementsSize = s.elementsSize
  owner : s'.self = s.self ∧ s'.policy = s.policy
  length : s'.elements.length = s.elements.length
  beyond : ∀ i, s.elementsSize < i → s'.elem i = s.elem i
  has : ∀ t, s'.Has t ↔ s.Has t
  timers : ∀ t, ∃ idx, s'.timers t = { s.timers t with mIndex := idx }
  outside : ∀ t, ¬ s.Has t → s'.timers t = s.timers t

theorem Shuffled.refl (s : TimerMgr) : Shuffled s s :=
  ⟨rfl, ⟨rfl, rfl⟩, rfl, fun _ _ => rfl, fun _ => Iff.rfl, fun _ => ⟨_, rfl⟩, fun _ _ => rfl⟩

theorem Shuffled.trans {s s' s'' : TimerMgr} (h : Shuffled s s') (h' : Shuffled s' s'') :
    Shuffled s s'' where
  size := h'.size.trans h.size
  owner := ⟨h'.owner.1.trans h.owner.1, h'.owner.2.trans h.owner.2⟩
  length := h'.length.trans h.length
  beyond := fun i hi => (h'.beyond i (h.size ▸ hi)).trans (h.beyond i hi)
  has := fun t => (h'.has t).trans (h.has t)
  timers := fun t => by
    obtain ⟨i, hi⟩ := h.timers t
    obtain ⟨j, hj⟩ := h'.timers t
    exact ⟨j, by rw [hj, hi]⟩
  outside := fun t ht => (h'.outside t fun hh => ht ((h.has t).mp hh)).trans (h.outside t ht)

/-! ## Slots after an assignment -/

theorem elem_setElem {s : TimerMgr} {i : ℕ} (e : Option Ptr) (pos : 1 ≤ i)
    (le : i ≤ s.elements.length) (x : ℕ) :
    (s.setElem i e).elem x = if x = i then e else s.elem x := by
  cases x with
  | zero =>
    rw [if_neg (by omega)]
    rfl
  | succ x =>
    simp only [elem, setElem, List.getElem?_set]
    by_cases hx : x + 1 = i
    · rw [if_pos hx, if_pos (by omega), if_pos (by omega)]
      rfl
    · rw [if_neg hx, if_neg (by omega)]

theorem elem_setTimer (s : TimerMgr) (t : Ptr) (x : Timer) (i : ℕ) :
    (s.setTimer t x).elem i = s.elem i := by
  cases i <;> rfl

theorem swap_ne {s : TimerMgr} (h : Slots s) {i j : ℕ} (ne : i ≠ j) (hi : 1 ≤ i)
    (hi' : i ≤ s.elementsSize) (hj : 1 ≤ j) (hj' : j ≤ s.elementsSize) :
    ∃ s', s.swap i j = some s' ∧ Slots s' ∧ Shuffled s s' ∧
      ∀ x, s'.elem x = BinaryHeap.swap s.elem i j x := by
  obtain ⟨a, ha, -, ham⟩ := h.used i hi hi'
  obtain ⟨b, hb, -, hbm⟩ := h.used j hj hj'
  have hab : a ≠ b := fun hab => ne (h.injective hi hi' hj hj' ha (hab ▸ hb))
  have hfits := h.fits
  let r := (s.setElem i (some b)).setElem j (some a)
  let s' := (r.setIndex b i).setIndex a j
  have helem (x : ℕ) : s'.elem x = BinaryHeap.swap s.elem i j x := by
    have hlen : (s.setElem i (some b)).elements.length = s.elements.length :=
      List.length_set
    have hx : s'.elem x = r.elem x := (elem_setTimer _ _ _ x).trans (elem_setTimer _ _ _ x)
    rw [hx, elem_setElem _ hj (by omega), elem_setElem _ hi (by omega), BinaryHeap.swap, ha, hb]
    by_cases hxi : x = i
    · rw [if_neg (by omega), if_pos hxi, if_pos hxi]
    · rw [if_neg hxi, if_neg hxi]
  have hta : s'.timers a = { s.timers a with mIndex := j } := by
    have hra : (r.setIndex b i).timers a = s.timers a := Function.update_of_ne hab _ _
    exact (Function.update_self _ _ _).trans (by rw [hra])
  have htb : s'.timers b = { s.timers b with mIndex := i } :=
    (Function.update_of_ne hab.symm _ _).trans (Function.update_self _ _ _)
  have hto (t : Ptr) (hta : t ≠ a) (htb : t ≠ b) : s'.timers t = s.timers t :=
    (Function.update_of_ne hta _ _).trans (Function.update_of_ne htb _ _)
  have hother {x : ℕ} {t : Ptr} (hx : 1 ≤ x) (hx' : x ≤ s.elementsSize) (hxi : x ≠ i)
      (hxj : x ≠ j) (ht : s.elem x = some t) : s'.timers t = s.timers t := by
    refine hto t (fun hta => hxi ?_) fun htb => hxj ?_
    · exact h.injective hx hx' hi hi' ht (hta ▸ ha)
    · exact h.injective hx hx' hj hj' ht (htb ▸ hb)
  refine ⟨s', ?_, ⟨?_, ?_⟩, ⟨rfl, ⟨rfl, rfl⟩, ?_, ?_, ?_, ?_, ?_⟩, helem⟩
  · simp only [swap, ne, ↓reduceIte, ha, hb, Option.bind_eq_bind, Option.bind_some]
    rfl
  · simpa [s', r, setIndex, setTimer, setElem] using hfits
  · intro x hx hx'
    have hx'' : x ≤ s.elementsSize := hx'
    rw [helem x]
    by_cases hxi : x = i
    · rw [hxi, BinaryHeap.swap_left]
      exact ⟨b, hb, by rw [htb], by rw [htb]; exact hbm⟩
    · by_cases hxj : x = j
      · rw [hxj, BinaryHeap.swap_right _ ne.symm]
        exact ⟨a, ha, by rw [hta], by rw [hta]; exact ham⟩
      · obtain ⟨t, ht, hti, htm⟩ := h.used x hx hx''
        rw [BinaryHeap.swap_other _ hxi hxj]
        rw [← hother hx hx'' hxi hxj ht] at hti htm
        exact ⟨t, ht, hti, htm⟩
  · simp [s', r, setIndex, setTimer, setElem]
  · intro x hx
    rw [helem x, BinaryHeap.swap_other _ (by omega) (by omega)]
  · intro t
    have hswap := BinaryHeap.mem_swap (k := s.elem) (v := some t) ne ⟨hi, hi'⟩ ⟨hj, hj'⟩
    simp only [← helem] at hswap
    exact hswap
  · intro t
    by_cases hta' : t = a
    · exact ⟨j, by rw [hta', hta]⟩
    · by_cases htb' : t = b
      · exact ⟨i, by rw [htb', htb]⟩
      · exact ⟨_, hto t hta' htb'⟩
  · intro t ht
    refine hto t (fun hta' => ht ⟨i, hi, hi', ?_⟩) fun htb' => ht ⟨j, hj, hj', ?_⟩
    · rw [hta', ha]
    · rw [htb', hb]

theorem swap_spec {s : TimerMgr} (h : Slots s) {i j : ℕ} (hi : 1 ≤ i)
    (hi' : i ≤ s.elementsSize) (hj : 1 ≤ j) (hj' : j ≤ s.elementsSize) :
    ∃ s', s.swap i j = some s' ∧ Slots s' ∧ Shuffled s s' ∧
      ∀ x, s'.elem x = BinaryHeap.swap s.elem i j x := by
  by_cases ne : i = j
  · refine ⟨s, if_pos ne, h, .refl s, fun x => ?_⟩
    rw [ne, BinaryHeap.swap]
    split
    · rename_i hx; rw [hx]
    · rfl
  · exact swap_ne h ne hi hi' hj hj'

theorem Shuffled.key_of_elem {s s' : TimerMgr} (h : Shuffled s s') {i j : ℕ}
    (same : s'.elem i = s.elem j) : s'.key i = s.key j := by
  unfold key
  rw [same]
  cases s.elem j with
  | none => rfl
  | some t =>
    obtain ⟨idx, ht⟩ := h.timers t
    simp only [ht]

theorem Shuffled.key_swap {s s' : TimerMgr} (h : Shuffled s s') {i j : ℕ}
    (helem : ∀ x, s'.elem x = BinaryHeap.swap s.elem i j x) :
    s'.key = BinaryHeap.swap s.key i j := by
  funext x
  unfold BinaryHeap.swap
  have hx := helem x
  unfold BinaryHeap.swap at hx
  split
  · rename_i hxi
    rw [if_pos hxi] at hx
    exact h.key_of_elem hx
  · rename_i hxi
    rw [if_neg hxi] at hx
    split
    · rename_i hxj
      rw [if_pos hxj] at hx
      exact h.key_of_elem hx
    · rename_i hxj
      rw [if_neg hxj] at hx
      exact h.key_of_elem hx

/-! ## Sifting -/

theorem expiry_eq {s : TimerMgr} (h : Slots s) {i : ℕ} (pos : 1 ≤ i) (le : i ≤ s.elementsSize) :
    ∃ x, s.expiry i = some x ∧ x.toNat = s.key i := by
  obtain ⟨t, ht, -⟩ := h.used i pos le
  exact ⟨_, by rw [expiry, ht]; rfl, by rw [key, ht]⟩

theorem earlier_spec {s : TimerMgr} (h : Slots s) {a b : ℕ} (ha : 1 ≤ a)
    (ha' : a ≤ s.elementsSize) (hb : 1 ≤ b) (hb' : b ≤ s.elementsSize) :
    s.earlier a b = some (if s.key a < s.key b then a else b) := by
  obtain ⟨x, hx, hxk⟩ := expiry_eq h ha ha'
  obtain ⟨y, hy, hyk⟩ := expiry_eq h hb hb'
  simp only [earlier, hx, hy, Option.bind_eq_bind, Option.bind_some, ← hxk, ← hyk,
    UInt64.lt_iff_toNat_lt]
  rfl

/-- `down` finds a least child with a smaller key, or the slot is in order with its children. -/
theorem minChild_spec {s : TimerMgr} (h : Slots s) {idx : ℕ} (pos : 1 ≤ idx) :
    ∃ m, s.minChild idx = some m ∧
      (m = idx ∧ BinaryHeap.Below s.key s.elementsSize idx ∨
        m / 2 = idx ∧ m ≤ s.elementsSize ∧ s.key m < s.key idx ∧
          ∀ i, i ≤ s.elementsSize → i / 2 = idx → s.key m ≤ s.key i) := by
  have child {i : ℕ} (hi : i / 2 = idx) : i = 2 * idx ∨ i = 2 * idx + 1 := by omega
  unfold minChild
  by_cases hl : 2 * idx ≤ s.elementsSize
  · rw [if_pos hl, earlier_spec h (by omega) hl pos (by omega)]
    by_cases hr : 2 * idx + 1 ≤ s.elementsSize
    · simp only [if_pos hr, Option.bind_eq_bind, Option.bind_some]
      by_cases hless : s.key (2 * idx) < s.key idx
      · rw [if_pos hless, earlier_spec h (by omega) hr (by omega) hl]
        by_cases hright : s.key (2 * idx + 1) < s.key (2 * idx)
        · refine ⟨_, rfl, .inr ?_⟩
          rw [if_pos hright]
          refine ⟨by omega, hr, hright.trans hless, fun i hi hp => ?_⟩
          rcases child hp with rfl | rfl
          · exact hright.le
          · exact le_refl _
        · refine ⟨_, rfl, .inr ?_⟩
          rw [if_neg hright]
          refine ⟨by omega, hl, hless, fun i hi hp => ?_⟩
          rcases child hp with rfl | rfl
          · exact le_refl _
          · exact not_lt.mp hright
      · rw [if_neg hless, earlier_spec h (by omega) hr pos (by omega)]
        by_cases hright : s.key (2 * idx + 1) < s.key idx
        · refine ⟨_, rfl, .inr ?_⟩
          rw [if_pos hright]
          refine ⟨by omega, hr, hright, fun i hi hp => ?_⟩
          rcases child hp with rfl | rfl
          · exact hright.le.trans (not_lt.mp hless)
          · exact le_refl _
        · refine ⟨_, rfl, .inl ?_⟩
          rw [if_neg hright]
          refine ⟨rfl, fun i hi hp => ?_⟩
          rcases child hp with rfl | rfl
          · exact not_lt.mp hless
          · exact not_lt.mp hright
    · simp only [if_neg hr, Option.bind_eq_bind, Option.bind_some]
      refine ⟨_, rfl, ?_⟩
      by_cases hless : s.key (2 * idx) < s.key idx
      · rw [if_pos hless]
        refine .inr ⟨by omega, hl, hless, fun i hi hp => ?_⟩
        rcases child hp with rfl | rfl
        · exact le_refl _
        · omega
      · rw [if_neg hless]
        refine .inl ⟨rfl, fun i hi hp => ?_⟩
        rcases child hp with rfl | rfl
        · exact not_lt.mp hless
        · omega
  · rw [if_neg hl]
    simp only [if_neg (show ¬ 2 * idx + 1 ≤ s.elementsSize by omega), Option.bind_eq_bind,
      Option.bind_some]
    refine ⟨_, rfl, .inl ⟨rfl, fun i hi hp => ?_⟩⟩
    omega

/-- `down` leaves a slot that is in order with its children, or moves its timer further down and
ends with a heap. -/
theorem downLoop_spec (fuel : ℕ) {s : TimerMgr} (h : Slots s) {idx : ℕ} (pos : 1 ≤ idx)
    (hole : BinaryHeap.Hole s.key s.elementsSize idx) (enough : s.elementsSize < idx + fuel)
    (some_ : 1 ≤ fuel) :
    ∃ s', downLoop fuel s idx = some s' ∧ Slots s' ∧ Shuffled s s' ∧
      (s' = s ∧ BinaryHeap.Below s.key s.elementsSize idx ∨
        BinaryHeap.Ordered s'.key s.elementsSize ∧
          ∀ t, s.elem idx = some t → idx < (s'.timers t).mIndex) := by
  induction fuel generalizing s idx with
  | zero => omega
  | succ fuel ih =>
    obtain ⟨m, hm, hres⟩ := minChild_spec h pos
    simp only [downLoop, hm, Option.bind_eq_bind, Option.bind_some]
    rcases hres with ⟨rfl, hbelow⟩ | ⟨hchild, hle, hless, hleast⟩
    · exact ⟨s, if_pos rfl, h, .refl s, .inl ⟨rfl, hbelow⟩⟩
    · have hne : m ≠ idx := by omega
      obtain ⟨s₁, hswap, h₁, hsh, helem⟩ := swap_spec h pos (by omega) (by omega) hle
      have hdown := hole.down pos hchild hle hless hleast
      rw [← hsh.key_swap helem, ← hsh.size] at hdown
      obtain ⟨s', hs', h', hsh', hend⟩ := ih h₁ (by omega) hdown.1 (by rw [hsh.size]; omega)
        (by omega)
      refine ⟨s', ?_, h', hsh.trans hsh', .inr ?_⟩
      · simp only [if_neg hne, hswap, Option.bind_some]
        exact hs'
      · have hmoved {t : Ptr} (ht : s.elem idx = some t) : s₁.elem m = some t := by
          rw [helem m, BinaryHeap.swap_right _ hne, ht]
        rw [hsh.size] at hdown hend
        rcases hend with ⟨rfl, hbelow⟩ | ⟨hord, hindex⟩
        · refine ⟨hdown.1.ordered hdown.2 hbelow, fun t ht => ?_⟩
          rw [(h₁.index (by omega) (by rw [hsh.size]; exact hle) (hmoved ht)).1]
          omega
        · refine ⟨hord, fun t ht => ?_⟩
          have := hindex t (hmoved ht)
          omega

theorem down_spec {s : TimerMgr} (h : Slots s) {idx : ℕ} (pos : 1 ≤ idx)
    (hole : BinaryHeap.Hole s.key s.elementsSize idx) (above : BinaryHeap.Above s.key idx) :
    ∃ s', s.down idx = some s' ∧ Slots s' ∧ Shuffled s s' ∧
      BinaryHeap.Ordered s'.key s.elementsSize := by
  obtain ⟨s', hs', h', hsh, hend⟩ := downLoop_spec (s.elementsSize + 1) h pos hole
    (by omega) (by omega)
  refine ⟨s', hs', h', hsh, ?_⟩
  rcases hend with ⟨rfl, hbelow⟩ | ⟨hord, -⟩
  · exact hole.ordered above hbelow
  · exact hord

theorem upLoop_spec {fuel : ℕ} {s : TimerMgr} (h : Slots s) {idx : ℕ} (pos : 1 ≤ idx)
    (le : idx ≤ s.elementsSize) (hole : BinaryHeap.Hole s.key s.elementsSize idx)
    (below : BinaryHeap.Below s.key s.elementsSize idx) (enough : idx < fuel) :
    ∃ s', upLoop fuel s idx = some s' ∧ Slots s' ∧ Shuffled s s' ∧
      BinaryHeap.Ordered s'.key s.elementsSize := by
  induction fuel generalizing s idx with
  | zero => omega
  | succ fuel ih =>
    simp only [upLoop]
    by_cases hp : 0 < idx / 2
    · have hne : idx ≠ idx / 2 := by omega
      rw [if_pos hp, earlier_spec h pos le hp (by omega)]
      simp only [Option.bind_eq_bind, Option.bind_some]
      by_cases hless : s.key idx < s.key (idx / 2)
      · obtain ⟨s₁, hswap, h₁, hsh, helem⟩ := swap_spec h pos le hp (by omega)
        have hup := hole.up (by omega) le hless
        rw [← hsh.key_swap helem, ← hsh.size] at hup
        obtain ⟨s', hs', h', hsh', hord⟩ := ih h₁ hp (by rw [hsh.size]; omega) hup.1 hup.2
          (by omega)
        refine ⟨s', ?_, h', hsh.trans hsh', hsh.size ▸ hord⟩
        simp only [if_pos hless, if_neg hne, hswap, Option.bind_some]
        exact hs'
      · refine ⟨s, ?_, h, .refl s, hole.ordered (fun _ => not_lt.mp hless) below⟩
        rw [if_neg hless, if_pos rfl]
        rfl
    · refine ⟨s, if_neg hp, h, .refl s, hole.ordered (fun h2 => ?_) below⟩
      omega

theorem up_spec {s : TimerMgr} (h : Slots s) {idx : ℕ} (pos : 1 ≤ idx)
    (le : idx ≤ s.elementsSize) (hole : BinaryHeap.Hole s.key s.elementsSize idx)
    (below : BinaryHeap.Below s.key s.elementsSize idx) :
    ∃ s', s.up idx = some s' ∧ Slots s' ∧ Shuffled s s' ∧
      BinaryHeap.Ordered s'.key s.elementsSize :=
  upLoop_spec h pos le hole below (by omega)

theorem change_spec {s : TimerMgr} (h : Slots s) {idx : ℕ} {e : Ptr} (pos : 1 ≤ idx)
    (le : idx ≤ s.elementsSize) (he : s.elem idx = some e)
    (hole : BinaryHeap.Hole s.key s.elementsSize idx) :
    ∃ s', s.change e = some s' ∧ Slots s' ∧ Shuffled s s' ∧
      BinaryHeap.Ordered s'.key s.elementsSize := by
  have hidx : (s.timers e).mIndex = idx := (h.index pos le he).1
  obtain ⟨s₁, hs₁, h₁, hsh, hend⟩ := downLoop_spec (s.elementsSize + 1) h pos hole
    (by omega) (by omega)
  simp only [change, hidx, down, hs₁, Option.bind_eq_bind, Option.bind_some]
  rcases hend with ⟨rfl, hbelow⟩ | ⟨hord, hmoved⟩
  · rw [if_pos hidx.symm]
    exact up_spec h pos le hole hbelow
  · have := hmoved e he
    rw [if_neg (by omega)]
    exact ⟨s₁, rfl, h₁, hsh, hord⟩

end Hwnet.TimerMgr
