import Mathlib.Algebra.GroupWithZero.Nat
import Mathlib.Data.List.Basic
import Mathlib.Data.Nat.Notation

set_option autoImplicit false

/-!
# Scattered writes

Memory in numbered blocks. A list of values is written to regions one after another, and read back
from them; where no two of the regions overlap it comes back as it was.
-/
namespace Hwnet.Scattered

abbrev Mem (α : Type) := ℕ → ℕ → α

structure Region where
  block : ℕ
  b : ℕ
  len : ℕ
  deriving DecidableEq, Repr

def Region.Apart (r s : Region) : Prop :=
  r.block ≠ s.block ∨ r.b + r.len ≤ s.b ∨ s.b + s.len ≤ r.b

instance (r s : Region) : Decidable (r.Apart s) :=
  inferInstanceAs (Decidable (_ ∨ _ ∨ _))

variable {α : Type}

def load (m : Mem α) (r : Region) (n : ℕ) : List α :=
  (List.range n).map fun i => m r.block (r.b + i)

def store (m : Mem α) (r : Region) (l : List α) : Mem α := fun block i =>
  if block = r.block ∧ r.b ≤ i then l[i - r.b]?.getD (m block i) else m block i

def capacity (rs : List Region) : ℕ := (rs.map Region.len).sum

/-- Each region takes what it has room for and leaves the rest to the next. -/
def scatter (m : Mem α) : List Region → List α → Mem α
  | [], _ => m
  | r :: rs, l => scatter (store m r (l.take r.len)) rs (l.drop r.len)

def gather (m : Mem α) : List Region → ℕ → List α
  | [], _ => []
  | r :: rs, n => load m r (min n r.len) ++ gather m rs (n - r.len)

variable {m m' : Mem α} {r s : Region} {rs : List Region} {l : List α} {n : ℕ}

@[simp] theorem length_load (m : Mem α) (r : Region) (n : ℕ) : (load m r n).length = n := by
  simp [load]

theorem capacity_cons (r : Region) (rs : List Region) :
    capacity (r :: rs) = r.len + capacity rs := rfl

theorem load_congr (same : ∀ i < n, m' r.block (r.b + i) = m r.block (r.b + i)) :
    load m' r n = load m r n :=
  List.map_congr_left fun i hi => same i (List.mem_range.mp hi)

theorem load_store (m : Mem α) (r : Region) (l : List α) : load (store m r l) r l.length = l := by
  refine List.ext_getElem (by simp) fun i hi hi' => ?_
  simp [load, store, List.getElem?_eq_getElem hi']

theorem load_store_apart (apart : r.Apart s) (hn : n ≤ r.len) (hl : l.length ≤ s.len) :
    load (store m s l) r n = load m r n := by
  refine load_congr fun i hi => ?_
  unfold store
  split
  · rename_i hin
    rw [List.getElem?_eq_none]
    · rfl
    · rcases apart with hblock | hbefore | hafter
      · exact absurd hin.1 hblock
      · omega
      · omega
  · rfl

theorem load_scatter (apart : ∀ s ∈ rs, r.Apart s) (hn : n ≤ r.len) :
    load (scatter m rs l) r n = load m r n := by
  induction rs generalizing m l with
  | nil => rfl
  | cons s rs ih =>
    rw [scatter, ih fun t ht => apart t (List.mem_cons_of_mem s ht)]
    exact load_store_apart (apart s List.mem_cons_self) hn (List.length_take_le _ _)

/-- What was scattered over regions that do not overlap is gathered again. -/
theorem gather_scatter (apart : rs.Pairwise Region.Apart) (fits : l.length ≤ capacity rs) :
    gather (scatter m rs l) rs l.length = l := by
  induction rs generalizing m l with
  | nil => exact (List.eq_nil_of_length_eq_zero (Nat.le_zero.mp fits)).symm
  | cons r rs ih =>
    obtain ⟨hfirst, hrest⟩ := List.pairwise_cons.mp apart
    rw [capacity_cons] at fits
    have hlen : min l.length r.len = (l.take r.len).length := by
      rw [List.length_take, Nat.min_comm]
    have hdrop : l.length - r.len = (l.drop r.len).length := List.length_drop.symm
    rw [gather, scatter, load_scatter hfirst (Nat.min_le_right _ _), hlen, load_store, hdrop,
      ih hrest (by rw [List.length_drop]; omega), List.take_append_drop]

theorem gather_zero (m : Mem α) (rs : List Region) : gather m rs 0 = [] := by
  induction rs with
  | nil => rfl
  | cons r rs ih =>
    rw [gather, Nat.zero_min, Nat.zero_sub, ih]
    rfl

end Hwnet.Scattered
