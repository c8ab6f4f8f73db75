import Mathlib.Data.List.Basic
import Mathlib.Data.Nat.Notation

set_option autoImplicit false

/-!
# Memory in blocks

A memory is a list of blocks, each freed or a list of cells, a cell being empty until it is written.
An access that is not within a block that is still there is an error.
-/
namespace Hwnet.Memory

universe u

structure Mem (α : Type u) where
  blocks : List (Option (List (Option α)))
  deriving DecidableEq, Repr

namespace Mem

variable {α : Type u} {m : Mem α} {p q : ℕ}

def empty : Mem α := ⟨[]⟩

def cells (m : Mem α) (p : ℕ) : Option (List (Option α)) := m.blocks[p]?.join

def size (m : Mem α) (p : ℕ) : Option ℕ := (m.cells p).map List.length

def alloc (m : Mem α) (n : ℕ) : Mem α × ℕ :=
  (⟨m.blocks ++ [some (.replicate n none)]⟩, m.blocks.length)

def free (m : Mem α) (p : ℕ) : Mem α := ⟨m.blocks.set p none⟩

def load (m : Mem α) (p : ℕ) (off n : ℕ) : Option (List (Option α)) := do
  let cells ← m.cells p
  if off + n ≤ cells.length then some ((cells.drop off).take n) else none

def store (m : Mem α) (p : ℕ) (off : ℕ) (data : List (Option α)) : Option (Mem α) := do
  let cells ← m.cells p
  if off + data.length ≤ cells.length then
    some ⟨m.blocks.set p (some (cells.take off ++ data ++ cells.drop (off + data.length)))⟩
  else none

theorem cells_set (h : p < m.blocks.length) (block : Option (List (Option α))) (q : ℕ) :
    (Mem.mk (m.blocks.set p block)).cells q = if q = p then block else m.cells q := by
  unfold cells
  rw [List.getElem?_set]
  by_cases hqp : q = p
  · subst hqp
    simp [h]
  · rw [if_neg (Ne.symm hqp), if_neg hqp]

theorem lt_of_cells {block : List (Option α)} (h : m.cells p = some block) :
    p < m.blocks.length := by
  by_contra hge
  rw [cells, List.getElem?_eq_none (Nat.not_lt.mp hge)] at h
  cases h

theorem cells_alloc (m : Mem α) (n : ℕ) (q : ℕ) : (m.alloc n).1.cells q =
    if q = (m.alloc n).2 then some (.replicate n none) else m.cells q := by
  show (m.blocks ++ [some (.replicate n none)])[q]?.join =
    if q = m.blocks.length then some (.replicate n none) else m.cells q
  rw [List.getElem?_append]
  split_ifs with hlt heq heq
  · omega
  · rfl
  · subst heq
    simp
  · have hnone : m.blocks[q]? = none := List.getElem?_eq_none (by omega)
    have hone : [some (List.replicate n (none : Option α))][q - m.blocks.length]? = none :=
      List.getElem?_eq_none (by rw [List.length_singleton]; omega)
    rw [hone, cells, hnone]

theorem cells_free (m : Mem α) (p q : ℕ) :
    (m.free p).cells q = if q = p then none else m.cells q := by
  by_cases hp : p < m.blocks.length
  · exact cells_set hp none q
  · rw [free, List.set_eq_of_length_le (Nat.not_lt.mp hp)]
    split
    · rename_i heq
      have hnone : m.blocks[q]? = none := List.getElem?_eq_none (by omega)
      rw [cells, hnone]
      rfl
    · rfl

/-- What a store that went through has done. -/
theorem cells_store {m' : Mem α} {off : ℕ} {data : List (Option α)}
    (h : m.store p off data = some m') :
    ∃ block, m.cells p = some block ∧ off + data.length ≤ block.length ∧
      ∀ q, m'.cells q = if q = p then
        some (block.take off ++ data ++ block.drop (off + data.length)) else m.cells q := by
  simp only [store, Option.bind_eq_bind, Option.bind_eq_some_iff] at h
  obtain ⟨block, hblock, h⟩ := h
  split at h
  · rename_i hbound
    cases h
    exact ⟨block, hblock, hbound, cells_set (lt_of_cells hblock) _⟩
  · cases h

/-- A stored block outside of what was stored. -/
theorem getElem?_stored {block data : List (Option α)} {off i : ℕ}
    (bound : off + data.length ≤ block.length) (outside : i < off ∨ off + data.length ≤ i) :
    (block.take off ++ data ++ block.drop (off + data.length))[i]? = block[i]? := by
  have htake : (block.take off).length = off := by
    rw [List.length_take]
    omega
  rcases outside with h | h
  · rw [List.append_assoc, List.getElem?_append_left (by omega), List.getElem?_take, if_pos h]
  · rw [List.getElem?_append_right (by rw [List.length_append]; omega), List.getElem?_drop,
      List.length_append, htake]
    congr 1
    omega

/-! ## Sizes -/

theorem size_alloc (m : Mem α) (n : ℕ) (q : ℕ) :
    (m.alloc n).1.size q = if q = (m.alloc n).2 then some n else m.size q := by
  rw [size, cells_alloc]
  split
  · simp
  · rfl

theorem cells_fresh (m : Mem α) (n : ℕ) : m.cells (m.alloc n).2 = none := by
  simp [cells, alloc]

theorem size_fresh (m : Mem α) (n : ℕ) : m.size (m.alloc n).2 = none := by
  rw [size, cells_fresh]
  rfl

theorem size_alloc_of {k : ℕ} (h : m.size q = some k) (n : ℕ) : (m.alloc n).1.size q = some k := by
  have hne : q ≠ (m.alloc n).2 := by
    rintro rfl
    rw [size_fresh] at h
    cases h
  rw [size_alloc, if_neg hne, h]

theorem size_free (m : Mem α) (p q : ℕ) :
    (m.free p).size q = if q = p then none else m.size q := by
  rw [size, cells_free]
  split <;> rfl

theorem size_store {m' : Mem α} {off : ℕ} {data : List (Option α)}
    (h : m.store p off data = some m') (q : ℕ) : m'.size q = m.size q := by
  obtain ⟨block, hblock, hbound, hcells⟩ := cells_store h
  rw [size, hcells]
  split
  · rename_i heq
    rw [heq, size, hblock]
    simp only [Option.map_some, List.length_append, List.length_take, List.length_drop]
    congr 1
    omega
  · rfl

theorem load_some {k off n : ℕ} (h : m.size p = some k) (bound : off + n ≤ k) :
    ∃ data, m.load p off n = some data ∧ data.length = n := by
  obtain ⟨block, hblock, rfl⟩ := Option.map_eq_some_iff.mp h
  refine ⟨(block.drop off).take n, ?_, ?_⟩
  · simp [load, hblock, bound]
  · simp only [List.length_take, List.length_drop]
    omega

/-- A store within the block goes through and leaves every block its size. -/
theorem store_some {k off : ℕ} {data : List (Option α)} (h : m.size p = some k)
    (bound : off + data.length ≤ k) :
    ∃ m', m.store p off data = some m' ∧ ∀ q, m'.size q = m.size q := by
  obtain ⟨block, hblock, rfl⟩ := Option.map_eq_some_iff.mp h
  have hstore : ∃ m', m.store p off data = some m' := by simp [store, hblock, bound]
  obtain ⟨m', hm'⟩ := hstore
  exact ⟨m', hm', size_store hm'⟩

/-! ## Contents -/

theorem load_eq_some {off n : ℕ} {data : List (Option α)} : m.load p off n = some data ↔
    ∃ block, m.cells p = some block ∧ off + n ≤ block.length ∧ (block.drop off).take n = data := by
  simp only [load, Option.bind_eq_bind, Option.bind_eq_some_iff]
  constructor
  · rintro ⟨block, hblock, h⟩
    split at h
    · rename_i hbound
      cases h
      exact ⟨block, hblock, hbound, rfl⟩
    · cases h
  · rintro ⟨block, hblock, hbound, rfl⟩
    exact ⟨block, hblock, if_pos hbound⟩

theorem length_load {off n : ℕ} {data : List (Option α)} (h : m.load p off n = some data) :
    data.length = n := by
  obtain ⟨block, -, hbound, rfl⟩ := load_eq_some.mp h
  rw [List.length_take, List.length_drop]
  omega

theorem load_congr {m' : Mem α} (h : m'.cells p = m.cells p) (off n : ℕ) :
    m'.load p off n = m.load p off n := by
  rw [load, h, load]

theorem load_take {off n : ℕ} {data : List (Option α)} (h : m.load p off n = some data) {k : ℕ}
    (le : k ≤ n) : m.load p off k = some (data.take k) := by
  obtain ⟨block, hblock, hbound, rfl⟩ := load_eq_some.mp h
  refine load_eq_some.mpr ⟨block, hblock, by omega, ?_⟩
  rw [List.take_take, Nat.min_eq_left le]

theorem load_drop {off n : ℕ} {data : List (Option α)} (h : m.load p off n = some data) {k : ℕ}
    (le : k ≤ n) : m.load p (off + k) (n - k) = some (data.drop k) := by
  obtain ⟨block, hblock, hbound, rfl⟩ := load_eq_some.mp h
  refine load_eq_some.mpr ⟨block, hblock, by omega, ?_⟩
  rw [List.drop_take, List.drop_drop]

/-- A store inside what is read replaces just its part. -/
theorem load_store {m' : Mem α} {off n pos : ℕ} {data old : List (Option α)}
    (h : m.store p (off + pos) data = some m') (before : m.load p off n = some old)
    (inside : pos + data.length ≤ n) :
    m'.load p off n = some (old.take pos ++ data ++ old.drop (pos + data.length)) := by
  obtain ⟨block, hblock, hbound, rfl⟩ := load_eq_some.mp before
  obtain ⟨block', hblock', -, hcells⟩ := cells_store h
  cases hblock.symm.trans hblock'
  refine load_eq_some.mpr ⟨_, (hcells p).trans (if_pos rfl), ?_, ?_⟩
  · simp only [List.length_append, List.length_take, List.length_drop]
    omega
  · refine List.ext_getElem? fun i => ?_
    simp only [List.getElem?_append, List.getElem?_take, List.getElem?_drop, List.length_append,
      List.length_take, List.length_drop]
    grind

/-- A store right behind what is read goes on with it. -/
theorem load_store_end {m' : Mem α} {off n : ℕ} {data old : List (Option α)}
    (h : m.store p (off + n) data = some m') (before : m.load p off n = some old) :
    m'.load p off (n + data.length) = some (old ++ data) := by
  obtain ⟨block, hblock, hbound, -⟩ := cells_store h
  have hsize : m.size p = some block.length := by rw [size, hblock]; rfl
  have hwithin : off + (n + data.length) ≤ block.length := by omega
  obtain ⟨whole, hwhole, hlen⟩ := load_some hsize hwithin
  have hold : whole.take n = old :=
    Option.some.inj ((load_take hwhole (Nat.le_add_right _ _)).symm.trans before)
  have hloaded := load_store h hwhole (Nat.le_refl _)
  rwa [hold, List.drop_of_length_le (Nat.le_of_eq hlen), List.append_nil] at hloaded

end Mem

end Hwnet.Memory
