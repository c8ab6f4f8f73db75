import Hwnet.Slices

set_option autoImplicit false

/-!
# The order of reports

An automaton reads the kinds of the reports. It does not count how often a kind follows itself, so
what it accepts does not depend on the cuts of the input either.
-/
namespace Hwnet.Slices

universe u
variable {σ α κ ω φ : Type u}

structure Language (φ κ ω : Type u) where
  data : φ → κ → Option φ
  note : φ → ω → Option φ
  again : ∀ (q q' : φ) (k : κ), data q k = some q' → data q' k = some q'

namespace Language

variable (L : Language φ κ ω)

def read (q : φ) : Report α κ ω → Option φ
  | .data k _ => L.data q k
  | .note o => L.note q o

def reads (q : φ) (l : List (Report α κ ω)) : Option φ := l.foldlM L.read q

theorem reads_cons (q : φ) (r : Report α κ ω) (l : List (Report α κ ω)) :
    L.reads q (r :: l) = (L.read q r).bind (L.reads · l) := by
  simp only [reads, List.foldlM_cons, Option.bind_eq_bind]

theorem reads_append (q : φ) (l m : List (Report α κ ω)) :
    L.reads q (l ++ m) = (L.reads q l).bind (L.reads · m) := by
  simp only [reads, List.foldlM_append, Option.bind_eq_bind]

theorem reads_prefix {q q' : φ} {l m : List (Report α κ ω)} (h : L.reads q (l ++ m) = some q') :
    ∃ p : φ, L.reads q l = some p := by
  rw [reads_append] at h
  obtain ⟨p, hp, -⟩ := Option.bind_eq_some_iff.mp h
  exact ⟨p, hp⟩

variable [DecidableEq κ]

theorem reads_push (q : φ) (r : Report α κ ω) (l : List (Report α κ ω)) :
    L.reads q (push r l) = L.reads q (r :: l) := by
  cases r with
  | note o => rfl
  | data k s =>
    cases l with
    | nil => rfl
    | cons r l =>
      cases r with
      | note o => rfl
      | data k' t =>
        by_cases h : k = k'
        · subst k'
          simp only [push, if_true, reads_cons, read]
          rcases hq : L.data q k with _ | q'
          · rfl
          · rw [Option.bind_some, Option.bind_some, L.again q q' k hq]
            rfl
        · simp [push, h]

theorem reads_join (q : φ) (l : List (Report α κ ω)) : L.reads q (join l) = L.reads q l := by
  induction l generalizing q with
  | nil => rfl
  | cons r l ih =>
    rw [join_cons, reads_push, reads_cons, reads_cons]
    exact congrArg (Option.bind (L.read q r)) (funext ih)

theorem reads_same {q : φ} {l m : List (Report α κ ω)} (h : Same l m) :
    L.reads q l = L.reads q m := by
  rw [← reads_join, h.join_eq, reads_join]

omit [DecidableEq κ] in
def Speaks (L : Language φ κ ω) (m : Machine σ α κ ω) (R : σ → φ → Prop) : Prop :=
  ∀ (s : σ) (q : φ) (x : α), R s q → (m.step s x 1).control ≠ .fault ∧
    ∃ q' : φ, L.reads q (m.stepReports s x) = some q' ∧
      ((m.step s x 1).control = .next ∨ (m.step s x 1).control = .exit →
        R (m.step s x 1).state q')

variable {L} {m : Machine σ α κ ω} {R : σ → φ → Prop}

omit [DecidableEq κ] in
theorem Speaks.trace (speaks : Speaks L m R) {s : σ} {q : φ} (related : R s q) (l : List α) :
    (m.trace s l).ending ≠ .fault ∧ ∃ q' : φ, L.reads q (m.trace s l).reports = some q' ∧
      ((m.trace s l).ending = .next ∨ (m.trace s l).ending = .exit →
        R (m.trace s l).state q') := by
  induction l generalizing s q with
  | nil => exact ⟨by simp [Machine.trace], q, rfl, fun _ => related⟩
  | cons x l ih =>
    obtain ⟨hfault, q', hq', hrelated⟩ := speaks s q x related
    rw [Machine.trace]
    rcases hc : (m.step s x 1).control with _ | _ | _ | _
    · obtain ⟨hfault', q'', hq'', hrelated'⟩ := ih (hrelated (Or.inl hc))
      refine ⟨hfault', q'', ?_, hrelated'⟩
      rw [reads_append, hq']
      exact hq''
    · exact ⟨by simp, q', hq', by simp⟩
    · exact ⟨by simp, q', hq', fun _ => hrelated (Or.inr hc)⟩
    · exact absurd hc hfault

omit [DecidableEq κ] in
theorem Speaks.trace_error (speaks : Speaks L m R) {s : σ} {q : φ} (related : R s q) {l : List α}
    (failed : (m.trace s l).ending = .error) : ∃ (s' : σ) (q' : φ) (x : α), R s' q' ∧
      (m.step s' x 1).control = .error ∧ (m.trace s l).state = (m.step s' x 1).state := by
  induction l generalizing s q with
  | nil => simp [Machine.trace] at failed
  | cons x l ih =>
    rw [Machine.trace] at failed ⊢
    rcases hc : (m.step s x 1).control with _ | _ | _ | _
    · obtain ⟨-, q', -, hrelated⟩ := speaks s q x related
      simp only [hc] at failed
      exact ih (hrelated (Or.inl hc)) failed
    · exact ⟨s, q, x, related, hc, rfl⟩
    · simp [hc] at failed
    · simp [hc] at failed

/-- The reports of any cut are accepted, and the machine is never undefined. -/
theorem Speaks.feed (speaks : Speaks L m R) (lawful : m.Lawful) (bulk : m.Bulk) {s : σ} {q : φ}
    (related : R s q) {ds : List (List α)} (nonempty : ∀ d ∈ ds, d ≠ []) :
    (m.feed s ds).ending ≠ .fault ∧ ∃ q' : φ, L.reads q (m.feed s ds).reports = some q' ∧
      ((m.feed s ds).ending = .next ∨ (m.feed s ds).ending = .exit →
        R (m.feed s ds).state q') := by
  obtain ⟨hstate, -, hending, tail, hlost, hsame⟩ := lawful.feed_trace (s := s) bulk nonempty
  obtain ⟨hfault, q', hq', hrelated⟩ := speaks.trace related ds.flatten
  rw [← hending] at hfault hlost hrelated
  rw [← hstate] at hrelated
  rw [← L.reads_same hsame] at hq'
  rcases hlost with rfl | ⟨hstopped, -⟩
  · rw [List.append_nil] at hq'
    exact ⟨hfault, q', hq', hrelated⟩
  · obtain ⟨p, hp⟩ := L.reads_prefix hq'
    refine ⟨hfault, p, hp, fun hend => ?_⟩
    rcases hend with hend | hend <;> simp [hend] at hstopped

theorem Speaks.execute (speaks : Speaks L m R) (lawful : m.Lawful) (bulk : m.Bulk) {s : σ} {q : φ}
    (related : R s q) {d : List α} (nonempty : d ≠ []) :
    (m.execute s d).ending ≠ .fault ∧ ∃ q' : φ, L.reads q (m.execute s d).reports = some q' ∧
      ((m.execute s d).ending = .next ∨ (m.execute s d).ending = .exit →
        R (m.execute s d).state q') := by
  rw [← m.feed_singleton]
  exact speaks.feed lawful bulk related (by simpa using nonempty)

end Language

end Hwnet.Slices
