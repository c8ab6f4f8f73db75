import Mathlib.Data.List.Induction
import Mathlib.Data.Nat.Digits.Defs

set_option autoImplicit false

/-!
# Numerals under a limit

A numeral is read from its highest digit on, and no digit is taken behind a number over a limit.
Some elements may be skipped. A number is written in the bytes of its decimal digits.
-/
namespace Hwnet.Numerals

variable {α : Type*} (base limit : ℕ) (skip : α → Bool) (digit : α → Option ℕ)

def number (ds : List ℕ) : ℕ := Nat.ofDigits base ds.reverse

def step (n : ℕ) (x : α) : Option ℕ :=
  if skip x then some n
  else (digit x).bind fun d => if limit < n then none else some (n * base + d)

theorem number_append (ds : List ℕ) (d : ℕ) :
    number base (ds ++ [d]) = number base ds * base + d := by
  rw [number, List.reverse_append, List.reverse_singleton, List.singleton_append, Nat.ofDigits_cons,
    number, Nat.mul_comm, Nat.add_comm]

variable {base limit skip digit} in
theorem step_iff (skips : ∀ x : α, skip x = true → digit x = none) (m n : ℕ) (x : α) :
    step base limit skip digit m x = some n ↔
      skip x = true ∧ m = n ∨ ∃ d : ℕ, digit x = some d ∧ m ≤ limit ∧ m * base + d = n := by
  unfold step
  cases hskip : skip x with
  | true => simp [skips x hskip]
  | false =>
    cases digit x with
    | none => simp
    | some d =>
      by_cases hlimit : limit < m
      · simp [hlimit]
      · simp [hlimit, Nat.le_of_not_lt hlimit]

/-- What is read: the digits below the base, with no number over the limit before the last one. -/
theorem foldlM_step (skips : ∀ x : α, skip x = true → digit x = none)
    (below : ∀ (x : α) (d : ℕ), digit x = some d → d < base) (l : List α) (n : ℕ) :
    l.foldlM (step base limit skip digit) 0 = some n ↔
      (∀ x ∈ l, skip x = true ∨ digit x ≠ none) ∧ number base (l.filterMap digit) = n ∧
        n / base ≤ limit := by
  induction l using List.reverseRecOn generalizing n with
  | nil =>
    simp only [List.foldlM_nil, List.filterMap_nil, List.not_mem_nil, false_imp_iff, implies_true,
      true_and]
    constructor
    · rintro ⟨⟩
      exact ⟨rfl, by rw [Nat.zero_div]; exact Nat.zero_le _⟩
    · rintro ⟨rfl, -⟩
      rfl
  | append_singleton l x ih =>
    rw [List.foldlM_append, Option.bind_eq_bind, Option.bind_eq_some_iff, List.filterMap_append,
      List.forall_mem_append, List.forall_mem_singleton]
    simp only [List.foldlM_cons, List.foldlM_nil, bind_pure]
    constructor
    · rintro ⟨m, hm, hx⟩
      obtain ⟨hall, hnumber, hlimit⟩ := (ih m).mp hm
      rcases (step_iff skips m n x).mp hx with ⟨hskip, rfl⟩ | ⟨d, hd, hle, rfl⟩
      · have hnone : [x].filterMap digit = [] := by simp [skips x hskip]
        rw [hnone, List.append_nil]
        exact ⟨⟨hall, Or.inl hskip⟩, hnumber, hlimit⟩
      · have hsome : [x].filterMap digit = [d] := by simp [hd]
        have hlt := below x d hd
        rw [hsome, number_append, hnumber, Nat.mul_comm, Nat.mul_add_div (by omega),
          Nat.div_eq_of_lt hlt]
        exact ⟨⟨hall, Or.inr (by simp [hd])⟩, rfl, hle⟩
    · rintro ⟨⟨hall, hx⟩, hnumber, hlimit⟩
      cases hd : digit x with
      | none =>
        have hskip : skip x = true := hx.resolve_right fun hne => hne hd
        have hnone : [x].filterMap digit = [] := by simp [hd]
        rw [hnone, List.append_nil] at hnumber
        exact ⟨n, (ih n).mpr ⟨hall, hnumber, hlimit⟩,
          (step_iff skips n n x).mpr (Or.inl ⟨hskip, rfl⟩)⟩
      | some d =>
        have hsome : [x].filterMap digit = [d] := by simp [hd]
        have hlt := below x d hd
        rw [hsome, number_append] at hnumber
        have hdiv : n / base = number base (l.filterMap digit) := by
          rw [← hnumber, Nat.mul_comm, Nat.mul_add_div (by omega), Nat.div_eq_of_lt hlt,
            Nat.add_zero]
        rw [hdiv] at hlimit
        exact ⟨_, (ih _).mpr ⟨hall, rfl, (Nat.div_le_self _ _).trans hlimit⟩,
          (step_iff skips _ n x).mpr (Or.inr ⟨d, hd, hlimit, hnumber⟩)⟩

theorem foldlM_map {σ τ : Type*} {f : σ → α → Option σ} {g : τ → α → Option τ} (r : σ → τ)
    (commutes : ∀ (s : σ) (x : α), (f s x).map r = g (r s) x) (s : σ) (l : List α) :
    (l.foldlM f s).map r = l.foldlM g (r s) := by
  induction l generalizing s with
  | nil => rfl
  | cons x l ih =>
    rw [List.foldlM_cons, List.foldlM_cons, ← commutes]
    cases f s x with
    | none => rfl
    | some t => exact ih t

/-! ## Decimal digits -/

def decimal (n : ℕ) : List UInt8 := (Nat.toDigits 10 n).map fun c => c.toNat.toUInt8

def digitByte (d : ℕ) : UInt8 := UInt8.ofNat (48 + d)

theorem digitChar_byte {d : ℕ} (hd : d < 10) : (Nat.digitChar d).toNat.toUInt8 = digitByte d := by
  revert d
  decide

theorem decimal_digit {n : ℕ} (h : n < 10) : decimal n = [digitByte n] := by
  rw [decimal, Nat.toDigits_of_lt_base h, List.map_singleton, digitChar_byte h]

theorem decimal_digits {n : ℕ} (h : 10 ≤ n) :
    decimal n = decimal (n / 10) ++ [digitByte (n % 10)] := by
  rw [decimal, Nat.toDigits_of_base_le (by decide) h, List.map_append, List.map_singleton,
    digitChar_byte (Nat.mod_lt n (by decide)), decimal]

theorem decimal_cases (n : ℕ) : n < 10 ∧ decimal n = [digitByte n] ∨
    10 ≤ n ∧ decimal n = decimal (n / 10) ++ [digitByte (n % 10)] := by
  rcases Nat.lt_or_ge n 10 with h | h
  · exact .inl ⟨h, decimal_digit h⟩
  · exact .inr ⟨h, decimal_digits h⟩

theorem decimal_head (n : ℕ) : ∃ d s, d < 10 ∧ decimal n = digitByte d :: s := by
  induction n using Nat.strongRecOn with
  | ind n ih =>
    rcases decimal_cases n with ⟨hn, hdecimal⟩ | ⟨hn, hdecimal⟩
    · exact ⟨n, [], hn, hdecimal⟩
    · obtain ⟨d, s, hd, hs⟩ := ih (n / 10) (by omega)
      exact ⟨d, s ++ [digitByte (n % 10)], hd, by rw [hdecimal, hs]; rfl⟩

theorem length_decimal_pos (n : ℕ) : 0 < (decimal n).length := by
  rw [decimal, List.length_map]
  exact Nat.length_toDigits_pos

theorem toNat_digit {c : Char} (h : c.isDigit = true) :
    c.toNat.toUInt8.toNat = c.toNat ∧ 48 ≤ c.toNat ∧ c.toNat ≤ 57 := by
  simp only [Char.isDigit, Bool.and_eq_true, decide_eq_true_eq] at h
  have hlow : 48 ≤ c.toNat := UInt32.le_iff_toNat_le.mp h.1
  have hhigh : c.toNat ≤ 57 := UInt32.le_iff_toNat_le.mp h.2
  refine ⟨?_, hlow, hhigh⟩
  show c.toNat % 256 = c.toNat
  omega

theorem isDigit_of_mem {n : ℕ} {c : Char} (h : c ∈ Nat.toDigits 10 n) : c.isDigit = true :=
  Nat.isDigit_of_mem_toDigits (by decide) (by decide) h

theorem not_mem_decimal {n : ℕ} {x : UInt8} (other : x.toNat < 48 ∨ 57 < x.toNat) :
    x ∉ decimal n := by
  intro h
  obtain ⟨c, hc, rfl⟩ := List.mem_map.mp h
  obtain ⟨hbyte, hlow, hhigh⟩ := toNat_digit (isDigit_of_mem hc)
  omega

end Hwnet.Numerals
