import Mathlib.Data.List.Basic

set_option autoImplicit false

/-!
# Splitting lists at separators

At the first occurrence of one element, and at every occurrence of two elements in a row.
-/
namespace Hwnet.Splitting

universe u
variable {α : Type u} [DecidableEq α] {a b c : α} {l : List α}

def first (c : α) : List α → Option (List α × List α)
  | [] => none
  | x :: l => if x = c then some ([], l) else (first c l).map fun p => (x :: p.1, p.2)

def atPair (a b : α) : List α → List (List α)
  | [] => [[]]
  | [x] => [[x]]
  | x :: y :: l =>
    if x = a ∧ y = b then [] :: atPair a b l
    else (atPair a b (y :: l)).modifyHead (x :: ·)

theorem first_append (absent : c ∉ l) (r : List α) : first c (l ++ c :: r) = some (l, r) := by
  induction l with
  | nil => simp [first]
  | cons x l ih =>
    simp only [List.mem_cons, not_or] at absent
    rw [List.cons_append, first, if_neg (Ne.symm absent.1), ih absent.2]
    rfl

theorem atPair_append (absent : a ∉ l) (r : List α) :
    atPair a b (l ++ a :: b :: r) = l :: atPair a b r := by
  induction l with
  | nil => simp [atPair]
  | cons x l ih =>
    simp only [List.mem_cons, not_or] at absent
    have hrest := ih absent.2
    have hx : ¬ x = a := Ne.symm absent.1
    cases l with
    | nil =>
      simp only [List.nil_append, List.cons_append] at hrest ⊢
      rw [atPair, if_neg fun h => hx h.1, hrest]
      rfl
    | cons y l =>
      simp only [List.cons_append] at hrest ⊢
      rw [atPair, if_neg fun h => hx h.1, hrest]
      rfl

end Hwnet.Splitting
