import Mathlib.Algebra.GroupWithZero.Nat
import Mathlib.Data.List.Basic
import Mathlib.Data.Nat.Notation

set_option autoImplicit false

/-!
# Machines and their runs

A machine is a step function whose label carries every choice of the scheduler and of the
environment. `Runs step ok s u` are the finite runs from `s` to `u` all of whose steps meet `ok`,
so one notion serves the unrestricted runs and the runs of a restricted environment.
-/
namespace Hwnet.Machine

universe u v
variable {σ : Type u} {α : Type v} {step : σ → α → Option σ} {ok : σ → α → Prop} {s t w : σ}

inductive Runs (step : σ → α → Option σ) (ok : σ → α → Prop) (s : σ) : σ → Prop where
  | refl : Runs step ok s s
  | next {u v : σ} {a : α} (run : Runs step ok s u) (meets : ok u a) (h : step u a = some v) :
      Runs step ok s v

abbrev Any (_ : σ) (_ : α) : Prop := True

abbrev Reaches (step : σ → α → Option σ) : σ → σ → Prop := Runs step Any

theorem Runs.trans (h : Runs step ok s t) (h' : Runs step ok t w) : Runs step ok s w := by
  induction h' with
  | refl => exact h
  | next _ meets hs ih => exact .next ih meets hs

theorem Runs.mono {ok' : σ → α → Prop} (h : Runs step ok s t) (weaker : ∀ u a, ok u a → ok' u a) :
    Runs step ok' s t := by
  induction h with
  | refl => exact .refl
  | next _ meets hs ih => exact .next ih (weaker _ _ meets) hs

/-- A run is one of every machine that moves alike where the condition is met. -/
theorem Runs.congr {step' : σ → α → Option σ} (h : Runs step ok s t)
    (alike : ∀ u a, ok u a → step u a = step' u a) : Runs step' ok s t := by
  induction h with
  | refl => exact .refl
  | next _ meets hs ih => exact .next ih meets ((alike _ _ meets).symm.trans hs)

theorem Runs.reaches (h : Runs step ok s t) : Reaches step s t :=
  h.mono fun _ _ _ => trivial

/-- The invariant rule: the step case may use the run so far, hence every earlier invariant. -/
theorem Runs.invariant {I : σ → Prop} (h : Runs step ok s t) (start : I s)
    (keep : ∀ u v a, Runs step ok s u → I u → ok u a → step u a = some v → I v) : I t := by
  induction h with
  | refl => exact start
  | next run meets hs ih => exact keep _ _ _ run ih meets hs

def exec (step : σ → α → Option σ) : σ → List α → Option σ
  | s, [] => some s
  | s, a :: as => (step s a).bind (exec step · as)

theorem Reaches.of_exec (as : List α) (h : exec step s as = some t) : Reaches step s t := by
  induction as generalizing s with
  | nil => cases h; exact .refl
  | cons a as ih =>
    simp only [exec, Option.bind_eq_some_iff] at h
    obtain ⟨u, hu, hrest⟩ := h
    exact (Runs.next .refl trivial hu).trans (ih hrest)

theorem exec_append (as bs : List α) :
    exec step s (as ++ bs) = (exec step s as).bind (exec step · bs) := by
  induction as generalizing s with
  | nil => rfl
  | cons a as ih =>
    simp only [List.cons_append, exec, Option.bind_assoc]
    exact congrArg _ (funext fun u => ih)

/-- The machine that refuses what `check` does not allow. -/
def guarded (check : σ → α → Bool) (step : σ → α → Option σ) (s : σ) (a : α) : Option σ :=
  if check s a then step s a else none

theorem guarded_eq_some {check : σ → α → Bool} {a : α} :
    guarded check step s a = some t ↔ check s a = true ∧ step s a = some t := by
  unfold guarded
  split
  · rename_i meets
    exact (and_iff_right meets).symm
  · rename_i meets
    exact ⟨fun h => (nomatch h), fun h => absurd h.1 meets⟩

theorem Runs.of_guarded {check : σ → α → Bool} (h : Reaches (guarded check step) s t) :
    Runs step (fun u a => check u a) s t := by
  induction h with
  | refl => exact .refl
  | next _ _ hs ih =>
    obtain ⟨meets, hstep⟩ := guarded_eq_some.mp hs
    exact .next ih meets hstep

theorem Runs.of_exec {check : σ → α → Bool} (as : List α)
    (h : exec (guarded check step) s as = some t) : Runs step (fun u a => check u a) s t :=
  .of_guarded (Reaches.of_exec as h)

/-- The run of a machine that refuses what is `bad` takes no such step. -/
theorem Runs.avoiding {bad : σ → α → Bool} (as : List α)
    (h : exec (guarded (fun u a => !bad u a) step) s as = some t) :
    Runs step (fun u a => bad u a = false) s t := by
  refine (Runs.of_exec as h).mono fun u a ha => ?_
  simpa using ha

def tally (step : σ → α → Option σ) (p : σ → α → Bool) : σ → List α → ℕ
  | _, [] => 0
  | s, a :: as => (p s a).toNat + ((step s a).map (tally step p · as)).getD 0

/-- A measure that grows by one in just the steps that meet `p` counts them. -/
theorem tally_exec (p : σ → α → Bool) (measure : σ → ℕ) (as : List α)
    (h : exec step s as = some t)
    (grow : ∀ u v a, Reaches step s u → step u a = some v →
      measure v = measure u + (p u a).toNat) :
    measure t = measure s + tally step p s as := by
  induction as generalizing s with
  | nil => cases h; rfl
  | cons a as ih =>
    simp only [exec, Option.bind_eq_some_iff] at h
    obtain ⟨u, hu, hrest⟩ := h
    have hfirst := grow s u a .refl hu
    have hlater := ih hrest fun v w b run => grow v w b ((Runs.next .refl trivial hu).trans run)
    simp only [tally, hu, Option.map_some, Option.getD_some]
    omega

theorem Runs.of_tally (p : σ → α → Bool) (as : List α) (h : exec step s as = some t)
    (never : tally step p s as = 0) : Runs step (fun u a => p u a = false) s t := by
  induction as generalizing s with
  | nil => cases h; exact .refl
  | cons a as ih =>
    simp only [exec, Option.bind_eq_some_iff] at h
    obtain ⟨u, hu, hrest⟩ := h
    simp only [tally, hu, Option.map_some, Option.getD_some, Nat.add_eq_zero_iff,
      Bool.toNat_eq_zero] at never
    have hfirst : Runs step (fun u a => p u a = false) s u := .next .refl never.1 hu
    exact hfirst.trans (ih hrest never.2)

theorem exists_of_tally (p : σ → α → Bool) (as : List α) (h : exec step s as = some t)
    (once : tally step p s as ≠ 0) :
    ∃ u a v, Reaches step s u ∧ p u a = true ∧ step u a = some v ∧ Reaches step v t := by
  induction as generalizing s with
  | nil => exact absurd rfl once
  | cons a as ih =>
    simp only [exec, Option.bind_eq_some_iff] at h
    obtain ⟨u, hu, hrest⟩ := h
    cases hp : p s a with
    | true => exact ⟨s, a, u, .refl, hp, hu, .of_exec as hrest⟩
    | false =>
      have hlater : tally step p u as ≠ 0 := by
        simpa [tally, hu, hp] using once
      obtain ⟨v, b, w, hv, hmeets, hstep, hw⟩ := ih hrest hlater
      exact ⟨v, b, w, (Runs.next .refl trivial hu).trans hv, hmeets, hstep, hw⟩

/-- Where every step keeps the invariant but those that meet `bad`, and none of these leads to a
good state, a run is good throughout if and only if it has no such step. -/
theorem always_iff {I Good : σ → Prop} {bad : σ → α → Bool} (good : ∀ u, I u → Good u)
    (keep : ∀ u a v, I u → bad u a = false → step u a = some v → I v)
    (breaks : ∀ u a v, I u → bad u a = true → step u a = some v → ¬ Good v) (start : I s)
    (as : List α) (h : exec step s as = some t) :
    (∀ before after u, as = before ++ after → exec step s before = some u → Good u) ↔
      tally step bad s as = 0 := by
  induction as generalizing s with
  | nil =>
    refine ⟨fun _ => rfl, fun _ before after u hsplit hu => ?_⟩
    rw [(List.append_eq_nil_iff.mp hsplit.symm).1] at hu
    cases hu
    exact good s start
  | cons a as ih =>
    simp only [exec, Option.bind_eq_some_iff] at h
    obtain ⟨v, hv, hrest⟩ := h
    simp only [tally, hv, Option.map_some, Option.getD_some, Nat.add_eq_zero_iff,
      Bool.toNat_eq_zero]
    constructor
    · intro always
      have hstays : bad s a = false := by
        by_contra hbad
        rw [Bool.not_eq_false] at hbad
        exact breaks s a v start hbad hv (always [a] as v rfl (by simp [exec, hv]))
      refine ⟨hstays, (ih (keep s a v start hstays hv) hrest).mp ?_⟩
      intro before after u hsplit hu
      exact always (a :: before) after u (by rw [hsplit, List.cons_append]) (by simp [exec, hv, hu])
    · rintro ⟨hstays, hlater⟩ before after u hsplit hu
      cases before with
      | nil =>
        cases hu
        exact good s start
      | cons b before =>
        obtain ⟨rfl, hrest'⟩ := List.cons_eq_cons.mp hsplit
        simp only [exec, hv, Option.bind_some] at hu
        exact (ih (keep s a v start hstays hv) hrest).mpr hlater before after u hrest' hu

/-! ## What a run shows -/

def trace {β : Type*} (step : σ → α → Option σ) (f : σ → α → Option β) : σ → List α → List β
  | _, [] => []
  | s, a :: as => (f s a).toList ++ ((step s a).map (trace step f · as)).getD []

/-- The rule for what a run shows: an invariant that counts what has been shown so far. -/
theorem trace_rule {β : Type*} {f : σ → α → Option β} {I : ℕ → σ → Prop} {P : ℕ → β → Prop}
    {bad : σ → α → Bool}
    (silent : ∀ n u a v, I n u → bad u a = false → f u a = none → step u a = some v → I n v)
    (speaks : ∀ n u a v b, I n u → bad u a = false → f u a = some b → step u a = some v →
      P n b ∧ I (n + 1) v) {n : ℕ} (start : I n s) (as : List α) (h : exec step s as = some t)
    (never : tally step bad s as = 0) {k : ℕ} {b : β} (hk : (trace step f s as)[k]? = some b) :
    P (n + k) b := by
  induction as generalizing s n k with
  | nil => simp [trace] at hk
  | cons a as ih =>
    simp only [exec, Option.bind_eq_some_iff] at h
    obtain ⟨u, hu, hrest⟩ := h
    simp only [tally, hu, Option.map_some, Option.getD_some, Nat.add_eq_zero_iff,
      Bool.toNat_eq_zero] at never
    simp only [trace, hu, Option.map_some, Option.getD_some] at hk
    cases hf : f s a with
    | none =>
      rw [hf, Option.toList_none, List.nil_append] at hk
      exact ih (silent n s a u start never.1 hf hu) hrest never.2 hk
    | some c =>
      obtain ⟨hshown, hnext⟩ := speaks n s a u c start never.1 hf hu
      rw [hf, Option.toList_some, List.singleton_append] at hk
      cases k with
      | zero =>
        obtain rfl := Option.some.inj hk
        exact hshown
      | succ k =>
        rw [List.getElem?_cons_succ] at hk
        have hlater := ih hnext hrest never.2 hk
        rwa [Nat.add_right_comm] at hlater

/-! ## Coming to an end -/

/-- Every run from `s` is finite, and where it cannot go on it has met `goal`. -/
inductive Settles (step : σ → α → Option σ) (goal : σ → Prop) : σ → Prop where
  | intro {s : σ} (stop : (∀ a, step s a = none) → goal s)
      (next : ∀ a t, step s a = some t → Settles step goal t) : Settles step goal s

/-- The measure rule. -/
theorem Settles.of_measure {goal I : σ → Prop} (measure : σ → ℕ)
    (keep : ∀ s a t, I s → step s a = some t → I t ∧ measure t < measure s)
    (stop : ∀ s, I s → (∀ a, step s a = none) → goal s) (start : I s) :
    Settles step goal s := by
  induction h : measure s using Nat.strongRecOn generalizing s with
  | ind n ih =>
    subst h
    refine .intro (stop s start) fun a t hstep => ?_
    obtain ⟨hinv, hless⟩ := keep s a t start hstep
    exact ih (measure t) hless hinv rfl

theorem Settles.reached {goal : σ → Prop} (h : Settles step goal s) (run : Reaches step s t) :
    Settles step goal t := by
  induction run with
  | refl => exact h
  | next _ _ hs ih =>
    obtain ⟨-, hnext⟩ := ih
    exact hnext _ _ hs

theorem Settles.ends {goal : σ → Prop} (h : Settles step goal s) :
    ∃ t, Reaches step s t ∧ goal t := by
  induction h with
  | @intro s stop _ ih =>
    by_cases hstop : ∀ a, step s a = none
    · exact ⟨s, .refl, stop hstop⟩
    · obtain ⟨a, ha⟩ := not_forall.mp hstop
      obtain ⟨u, hu⟩ := Option.ne_none_iff_exists'.mp ha
      obtain ⟨t, ht, hgoal⟩ := ih a u hu
      exact ⟨t, (Runs.next .refl trivial hu).trans ht, hgoal⟩

/-! ## Threads in a list -/

variable {β : Type u} {l : List β} {i j : ℕ} {a b x : β}

theorem of_getElem?_set (h : (l.set i x)[j]? = some b) :
    j = i ∧ b = x ∨ j ≠ i ∧ l[j]? = some b := by
  rw [List.getElem?_set] at h
  split_ifs at h with hij hlen
  · exact .inl ⟨hij.symm, (Option.some.inj h).symm⟩
  · exact .inr ⟨Ne.symm hij, h⟩

/-- One thread has moved: the count of those that meet `p` changes by it alone. -/
theorem countP_set_add (p : β → Bool) (h : l[i]? = some a) (x : β) :
    (l.set i x).countP p + (p a).toNat = l.countP p + (p x).toNat := by
  induction l generalizing i with
  | nil => simp at h
  | cons b l ih =>
    cases i with
    | zero =>
      simp only [List.getElem?_cons_zero, Option.some.injEq] at h
      subst h
      cases hb : p b <;> cases hx : p x <;> simp [hb, hx]
    | succ i =>
      have := ih (List.getElem?_cons_succ ▸ h)
      simp only [List.set_cons_succ, List.countP_cons]
      omega

theorem countP_pos_of_getElem? (p : β → Bool) (h : l[i]? = some a) (ha : p a = true) :
    0 < l.countP p :=
  List.countP_pos_iff.mpr ⟨a, List.mem_of_getElem? h, ha⟩

/-- Two threads that meet a test that one at most meets are one. -/
theorem eq_of_countP_le_one {p : β → Bool} (one : l.countP p ≤ 1) (hi : l[i]? = some a)
    (ha : p a = true) (hj : l[j]? = some b) (hb : p b = true) : i = j := by
  induction l generalizing i j with
  | nil => simp at hi
  | cons c l ih =>
    rw [List.countP_cons] at one
    cases i with
    | zero =>
      cases j with
      | zero => rfl
      | succ j =>
        obtain rfl := Option.some.inj hi
        have hlater := countP_pos_of_getElem? p (List.getElem?_cons_succ ▸ hj) hb
        simp only [ha, if_true] at one
        omega
    | succ i =>
      cases j with
      | zero =>
        obtain rfl := Option.some.inj hj
        have hlater := countP_pos_of_getElem? p (List.getElem?_cons_succ ▸ hi) ha
        simp only [hb, if_true] at one
        omega
      | succ j =>
        rw [List.getElem?_cons_succ] at hi hj
        exact congrArg Nat.succ (ih (by omega) hi hj)

theorem sum_set_add (f : β → ℕ) (h : l[i]? = some a) (x : β) :
    ((l.set i x).map f).sum + f a = (l.map f).sum + f x := by
  induction l generalizing i with
  | nil => simp at h
  | cons b l ih =>
    cases i with
    | zero =>
      simp only [List.getElem?_cons_zero, Option.some.injEq] at h
      subst h
      simp only [List.set_cons_zero, List.map_cons, List.sum_cons]
      omega
    | succ i =>
      have := ih (List.getElem?_cons_succ ▸ h)
      simp only [List.set_cons_succ, List.map_cons, List.sum_cons]
      omega

theorem sum_eraseIdx_add (f : β → ℕ) (h : l[i]? = some a) :
    ((l.eraseIdx i).map f).sum + f a = (l.map f).sum := by
  induction l generalizing i with
  | nil => simp at h
  | cons b l ih =>
    cases i with
    | zero =>
      simp only [List.getElem?_cons_zero, Option.some.injEq] at h
      subst h
      simp only [List.eraseIdx_cons_zero, List.map_cons, List.sum_cons]
      omega
    | succ i =>
      have := ih (List.getElem?_cons_succ ▸ h)
      simp only [List.eraseIdx_cons_succ, List.map_cons, List.sum_cons]
      omega

/-- A thread moves among states that do not meet `p`. -/
theorem filter_set (p : β → Bool) (h : l[i]? = some a) (ha : p a = false) (hx : p x = false) :
    (l.set i x).filter p = l.filter p := by
  induction l generalizing i with
  | nil => rfl
  | cons b l ih =>
    cases i with
    | zero =>
      rw [List.getElem?_cons_zero, Option.some.injEq] at h
      subst h
      simp [ha, hx]
    | succ i =>
      rw [List.set_cons_succ, List.filter_cons, List.filter_cons, ih (List.getElem?_cons_succ ▸ h)]

theorem filter_eraseIdx (p : β → Bool) (h : l[i]? = some a) (ha : p a = false) :
    (l.eraseIdx i).filter p = l.filter p := by
  induction l generalizing i with
  | nil => rfl
  | cons b l ih =>
    cases i with
    | zero =>
      rw [List.getElem?_cons_zero, Option.some.injEq] at h
      subst h
      simp [ha]
    | succ i =>
      rw [List.eraseIdx_cons_succ, List.filter_cons, List.filter_cons,
        ih (List.getElem?_cons_succ ▸ h)]

theorem mem_set_of_ne (h : l[i]? = some a) (hb : b ∈ l) (ne : b ≠ a) (x : β) : b ∈ l.set i x := by
  obtain ⟨j, hj⟩ := List.getElem?_of_mem hb
  refine List.mem_of_getElem? (i := j) ?_
  rw [List.getElem?_set, if_neg ?_, hj]
  rintro rfl
  exact ne (Option.some.inj (hj.symm.trans h))

theorem mem_eraseIdx_of_ne (h : l[i]? = some a) (hb : b ∈ l) (ne : b ≠ a) : b ∈ l.eraseIdx i := by
  obtain ⟨j, hj⟩ := List.getElem?_of_mem hb
  refine List.mem_eraseIdx_iff_getElem?.mpr ⟨j, ?_, hj⟩
  rintro rfl
  exact ne (Option.some.inj (hj.symm.trans h))

/-- A thread of a list that has one at most. -/
theorem sole_of_length_le_one (one : l.length ≤ 1) (h : l[i]? = some a) : i = 0 ∧ l = [a] := by
  obtain ⟨hi, hget⟩ := List.getElem?_eq_some_iff.mp h
  match l, one with
  | [], _ => simp at hi
  | [b], _ =>
    simp only [List.length_singleton, Nat.lt_one_iff] at hi
    subst hi
    exact ⟨rfl, by rw [← hget]; rfl⟩

/-! ## Versions that wrap -/

/-- A version is as it was where the number of changes since is a multiple of 2^32. -/
theorem version_eq_iff {seen events : ℕ} (le : seen ≤ events) :
    BitVec.ofNat 32 seen = BitVec.ofNat 32 events ↔ (events - seen) % 2 ^ 32 = 0 := by
  rw [← BitVec.toNat_inj, BitVec.toNat_ofNat, BitVec.toNat_ofNat]
  omega

end Hwnet.Machine
