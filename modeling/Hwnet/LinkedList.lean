import Mathlib.Data.List.Nodup
import Mathlib.Data.Nat.Notation
import Mathlib.Logic.Function.Basic

set_option autoImplicit false

/-!
# Lists linked through their nodes

`Chain next head l` tells that the nodes of `l` are linked by `next` from `head` up to a null
pointer. A chain has no cycle, and depends on nothing but the links of its own nodes.
-/
namespace Hwnet.LinkedList

universe u
variable {α : Type u} {next next' : α → Option α} {head head' : Option α} {l l' : List α} {a t : α}

def Chain (next : α → Option α) : Option α → List α → Prop
  | head, [] => head = none
  | head, a :: l => head = some a ∧ Chain next (next a) l

theorem Chain.unique (h : Chain next head l) (h' : Chain next head l') : l = l' := by
  induction l generalizing head l' with
  | nil =>
    cases l' with
    | nil => rfl
    | cons b l' => cases h.symm.trans h'.1
  | cons a l ih =>
    cases l' with
    | nil => cases h.1.symm.trans h'
    | cons b l' =>
      obtain rfl := Option.some.inj (h.1.symm.trans h'.1)
      rw [ih h.2 h'.2]

theorem Chain.frame (h : Chain next head l) (same : ∀ a ∈ l, next' a = next a) :
    Chain next' head l := by
  induction l generalizing head with
  | nil => exact h
  | cons a l ih =>
    refine ⟨h.1, ?_⟩
    rw [same a List.mem_cons_self]
    exact ih h.2 fun b hb => same b (List.mem_cons_of_mem a hb)

theorem Chain.suffix (h : Chain next head l) (ha : a ∈ l) :
    ∃ k, Chain next (some a) k ∧ k.length ≤ l.length := by
  induction l generalizing head with
  | nil => cases ha
  | cons b l ih =>
    rcases List.mem_cons.mp ha with rfl | ha
    · exact ⟨a :: l, ⟨rfl, h.2⟩, Nat.le_refl _⟩
    · obtain ⟨k, hk, hle⟩ := ih h.2 ha
      exact ⟨k, hk, Nat.le_succ_of_le hle⟩

/-- A node met again would be the head of a shorter list. -/
theorem Chain.nodup (h : Chain next head l) : l.Nodup := by
  induction l generalizing head with
  | nil => exact .nil
  | cons a l ih =>
    refine List.nodup_cons.mpr ⟨fun ha => ?_, ih h.2⟩
    obtain ⟨k, hk, hle⟩ := h.2.suffix ha
    have hsame : a :: l = k := h.unique (h.1 ▸ hk)
    rw [← hsame, List.length_cons] at hle
    exact Nat.not_succ_le_self _ hle

theorem Chain.head_eq (h : Chain next head l) : head = l.head? := by
  cases l with
  | nil => exact h
  | cons a l => exact h.1

theorem Chain.last (h : Chain next head l) (last : l.getLast? = some t) : next t = none := by
  induction l generalizing head with
  | nil => cases last
  | cons a l ih =>
    cases l with
    | nil =>
      have hat : a = t := Option.some.inj last
      exact hat ▸ h.2
    | cons b l => exact ih h.2 (by rwa [List.getLast?_cons_cons] at last)

/-- Without links a chain has its head at most. -/
theorem chain_iff_toList (null : ∀ a, next a = none) : Chain next head l ↔ l = head.toList := by
  cases l with
  | nil => cases head <;> simp [Chain]
  | cons a l =>
    have htail : Chain next (next a) l ↔ l = [] := by
      rw [null a]
      cases l <;> simp [Chain]
    cases head with
    | none => simp [Chain]
    | some b => simp [Chain, htail, eq_comm]

section Update

variable [DecidableEq α]

theorem Chain.update (h : Chain next head l) (out : a ∉ l) (x : Option α) :
    Chain (Function.update next a x) head l :=
  h.frame fun _ hb => Function.update_of_ne (ne_of_mem_of_not_mem hb out) _ _

/-- Linking the last node of one chain to the head of another puts them together. -/
theorem Chain.append (h : Chain next head l) (h' : Chain next head' l')
    (last : l.getLast? = some t) (apart : t ∉ l') :
    Chain (Function.update next t head') head (l ++ l') := by
  induction l generalizing head with
  | nil => cases last
  | cons a l ih =>
    refine ⟨h.1, ?_⟩
    cases l with
    | nil =>
      have hat : a = t := Option.some.inj last
      subst hat
      rw [Function.update_self]
      exact h'.update apart head'
    | cons b l =>
      rw [List.getLast?_cons_cons] at last
      have hat : a ≠ t := by
        rintro rfl
        exact (List.nodup_cons.mp h.nodup).1 (List.mem_of_getLast? last)
      rw [Function.update_of_ne hat]
      exact ih h.2 last

end Update

end Hwnet.LinkedList
