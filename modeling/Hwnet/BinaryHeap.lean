import Mathlib.Data.Nat.Notation
import Mathlib.Order.Lattice

set_option autoImplicit false

/-!
# Binary heaps over an array of keys

Positions count from 1 and the parent of `i` is `i / 2`. A heap being repaired has one position
whose edges may be out of order; exchanging it with a child or with its parent moves that position.
-/
namespace Hwnet.BinaryHeap

universe u
variable {κ : Type u} [LinearOrder κ] {k k' : ℕ → κ} {n h : ℕ}

def Ordered (k : ℕ → κ) (n : ℕ) : Prop := ∀ i, 2 ≤ i → i ≤ n → k (i / 2) ≤ k i

/-- In order but for the edges at `h`; the children of `h` are not below its parent. -/
structure Hole (k : ℕ → κ) (n h : ℕ) : Prop where
  away : ∀ i, 2 ≤ i → i ≤ n → i ≠ h → i / 2 ≠ h → k (i / 2) ≤ k i
  across : 2 ≤ h → ∀ i, i ≤ n → i / 2 = h → k (h / 2) ≤ k i

def Above (k : ℕ → κ) (h : ℕ) : Prop := 2 ≤ h → k (h / 2) ≤ k h

def Below (k : ℕ → κ) (n h : ℕ) : Prop := ∀ i, i ≤ n → i / 2 = h → k h ≤ k i

theorem Ordered.shrink {m : ℕ} (ord : Ordered k n) (le : m ≤ n) : Ordered k m :=
  fun i h2 hi => ord i h2 (Nat.le_trans hi le)

theorem Ordered.root_le (ord : Ordered k n) (i : ℕ) (pos : 1 ≤ i) (le : i ≤ n) : k 1 ≤ k i := by
  induction i using Nat.strongRecOn with
  | _ i ih =>
    by_cases h1 : i = 1
    · rw [h1]
    · have hp := ih (i / 2) (by omega) (by omega) (by omega)
      exact hp.trans (ord i (by omega) le)

theorem Hole.ordered (hole : Hole k n h) (above : Above k h) (below : Below k n h) :
    Ordered k n := by
  intro i h2 hi
  by_cases hih : i = h
  · rw [hih] at h2 ⊢
    exact above h2
  · by_cases hph : i / 2 = h
    · rw [hph]; exact below i hi hph
    · exact hole.away i h2 hi hih hph

/-- Changing one key leaves a hole there. -/
theorem Ordered.hole (ord : Ordered k n) (le : 2 ≤ h → h ≤ n)
    (same : ∀ i, i ≠ h → i ≤ n → k' i = k i) : Hole k' n h where
  away := by
    intro i h2 hi hih hph
    rw [same i hih hi, same (i / 2) hph (by omega)]
    exact ord i h2 hi
  across := by
    intro h2 i hi hph
    have hh := le h2
    rw [same i (by omega) hi, same (h / 2) (by omega) (by omega)]
    have hdown := ord i (by omega) hi
    rw [hph] at hdown
    exact (ord h h2 hh).trans hdown

/-- A key added at the end is a hole without children. -/
theorem Ordered.push (ord : Ordered k n) (same : ∀ i, i ≤ n → k' i = k i) :
    Hole k' (n + 1) (n + 1) ∧ Below k' (n + 1) (n + 1) := by
  refine ⟨⟨?_, ?_⟩, ?_⟩
  · intro i h2 hi hih hph
    rw [same i (by omega), same (i / 2) (by omega)]
    exact ord i h2 (by omega)
  · intro h2 i hi hph
    omega
  · intro i hi hph
    omega

/-! ## Exchanging two positions -/

def swap (k : ℕ → κ) (i j x : ℕ) : κ := if x = i then k j else if x = j then k i else k x

omit [LinearOrder κ] in
theorem swap_left (k : ℕ → κ) (i j : ℕ) : swap k i j i = k j := by
  rw [swap, if_pos rfl]

omit [LinearOrder κ] in
theorem swap_right (k : ℕ → κ) {i j : ℕ} (ne : j ≠ i) : swap k i j j = k i := by
  rw [swap, if_neg ne, if_pos rfl]

omit [LinearOrder κ] in
theorem swap_other (k : ℕ → κ) {i j x : ℕ} (hi : x ≠ i) (hj : x ≠ j) : swap k i j x = k x := by
  rw [swap, if_neg hi, if_neg hj]

omit [LinearOrder κ] in
theorem swap_swap (k : ℕ → κ) {i j : ℕ} (ne : i ≠ j) (x : ℕ) : swap (swap k i j) i j x = k x := by
  by_cases hxi : x = i
  · rw [hxi, swap_left, swap_right k ne.symm]
  · by_cases hxj : x = j
    · rw [hxj, swap_right _ ne.symm, swap_left]
    · rw [swap_other _ hxi hxj, swap_other k hxi hxj]

omit [LinearOrder κ] in
theorem mem_swap_of {i j : ℕ} (ne : i ≠ j) (hi : 1 ≤ i ∧ i ≤ n) (hj : 1 ≤ j ∧ j ≤ n) {v : κ}
    (h : ∃ x, 1 ≤ x ∧ x ≤ n ∧ k x = v) : ∃ x, 1 ≤ x ∧ x ≤ n ∧ swap k i j x = v := by
  obtain ⟨x, hx, hx', hv⟩ := h
  by_cases hxi : x = i
  · exact ⟨j, hj.1, hj.2, by rw [swap_right k ne.symm, ← hxi, hv]⟩
  · by_cases hxj : x = j
    · exact ⟨i, hi.1, hi.2, by rw [swap_left, ← hxj, hv]⟩
    · exact ⟨x, hx, hx', by rw [swap_other k hxi hxj, hv]⟩

omit [LinearOrder κ] in
theorem mem_swap {i j : ℕ} (ne : i ≠ j) (hi : 1 ≤ i ∧ i ≤ n) (hj : 1 ≤ j ∧ j ≤ n) {v : κ} :
    (∃ x, 1 ≤ x ∧ x ≤ n ∧ swap k i j x = v) ↔ ∃ x, 1 ≤ x ∧ x ≤ n ∧ k x = v := by
  refine ⟨fun h => ?_, mem_swap_of ne hi hj⟩
  obtain ⟨x, hx, hx', hv⟩ := mem_swap_of ne hi hj h
  exact ⟨x, hx, hx', (swap_swap k ne x).symm.trans hv⟩

/-- One step down: `m` is a least child of the hole and its key is smaller. -/
theorem Hole.down {m : ℕ} (hole : Hole k n h) (pos : 1 ≤ h) (child : m / 2 = h) (le : m ≤ n)
    (less : k m < k h) (least : ∀ i, i ≤ n → i / 2 = h → k m ≤ k i) :
    Hole (swap k h m) n m ∧ Above (swap k h m) m := by
  have hne : m ≠ h := by omega
  refine ⟨⟨?_, ?_⟩, ?_⟩
  · intro i h2 hi him hpm
    by_cases hih : i = h
    · rw [hih] at h2 ⊢
      rw [swap_left, swap_other k (by omega) (by omega)]
      exact hole.across h2 m le child
    · rw [swap_other k hih him]
      by_cases hph : i / 2 = h
      · rw [hph, swap_left]
        exact least i hi hph
      · rw [swap_other k hph hpm]
        exact hole.away i h2 hi hih hph
  · intro h2 i hi hpm
    rw [child, swap_left, swap_other k (by omega) (by omega)]
    have hedge := hole.away i (by omega) hi (by omega) (by omega)
    rwa [hpm] at hedge
  · intro h2
    rw [child, swap_left, swap_right k hne]
    exact less.le

/-- One step up: the hole's key is below its parent's. -/
theorem Hole.up (hole : Hole k n h) (h2 : 2 ≤ h) (le : h ≤ n)
    (less : k h < k (h / 2)) :
    Hole (swap k h (h / 2)) n (h / 2) ∧ Below (swap k h (h / 2)) n (h / 2) := by
  have hne : h / 2 ≠ h := by omega
  have sibling (i : ℕ) (hi : i ≤ n) (hp : i / 2 = h / 2) (hih : i ≠ h) : k (h / 2) ≤ k i := by
    have hedge := hole.away i (by omega) hi hih (by omega)
    rwa [hp] at hedge
  refine ⟨⟨?_, ?_⟩, ?_⟩
  · intro i hi2 hi hip hpp
    have hih : i ≠ h := fun hih => hpp (by rw [hih])
    rw [swap_other k hih hip]
    by_cases hph : i / 2 = h
    · rw [hph, swap_left]
      exact hole.across h2 i hi hph
    · rw [swap_other k hph hpp]
      exact hole.away i hi2 hi hih hph
  · intro hp2 i hi hp
    have hgrand := hole.away (h / 2) hp2 (by omega) hne (by omega)
    rw [swap_other k (show h / 2 / 2 ≠ h by omega) (by omega)]
    by_cases hih : i = h
    · rw [hih, swap_left]
      exact hgrand
    · rw [swap_other k hih (by omega)]
      exact hgrand.trans (sibling i hi hp hih)
  · intro i hi hp
    rw [swap_right k hne]
    by_cases hih : i = h
    · rw [hih, swap_left]
      exact less.le
    · rw [swap_other k hih (by omega)]
      exact less.le.trans (sibling i hi hp hih)

end Hwnet.BinaryHeap
