import Hwnet.Numerals
import Hwnet.RedisReaderLanguage
import Mathlib.Tactic.IntervalCases

set_option autoImplicit false

/-!
# Replies that are written

A server writes replies of every type, in arrays up to eight deep. The reader gives them back one
after another, whatever the cuts.
-/
namespace Hwnet.Hiredis

open Numerals (decimal digitByte decimal_cases decimal_head not_mem_decimal)
open Nested

/-! ## Numbers -/

theorem newline_of_not_mem {line : Bytes} (h : 13 ∉ line) : newline line = none := by
  induction line with
  | nil => rfl
  | cons c line ih =>
    rw [List.mem_cons, not_or] at h
    cases line with
    | nil => rfl
    | cons d line => rw [newline, if_neg fun hc => h.1 hc.1.symm, ih h.2]; rfl

theorem digitByte_reads {d : ℕ} (hd : d < 10) : digitByte d ≠ 13 ∧ digitByte d ≠ 45 ∧
    digitByte d ≠ 43 ∧ 48 ≤ digitByte d ∧ digitByte d < 58 ∧ (digitByte d).toNat = 48 + d := by
  interval_cases d <;> decide

theorem readDigits_digit (mult : ℤ) {v d : ℕ} (hd : d < 10) (s : Bytes)
    (small : ((v * 10 + d : ℕ) : ℤ) ≤ longLongMax) :
    readDigits mult v (digitByte d :: s) = readDigits mult (v * 10 + d : ℕ) s := by
  obtain ⟨h13, -, -, h48, h58, hnat⟩ := digitByte_reads hd
  have hvalue : (v : ℤ) * 10 + ((digitByte d).toNat - 48) = (v * 10 + d : ℕ) := by
    rw [hnat]
    push_cast
    omega
  rw [readDigits, if_neg h13, if_pos ⟨h48, h58⟩, hvalue, if_pos small]

theorem readDigits_decimal (mult : ℤ) (n : ℕ) (s : Bytes) (small : (n : ℤ) ≤ longLongMax) :
    readDigits mult 0 (decimal n ++ s) = readDigits mult n s := by
  induction n using Nat.strongRecOn generalizing s with
  | ind n ih =>
    rcases decimal_cases n with ⟨hn, hdecimal⟩ | ⟨hn, hdecimal⟩
    · have hdigit := readDigits_digit (v := 0) mult hn s (by simpa using small)
      rw [hdecimal]
      simpa using hdigit
    · have hsum : n / 10 * 10 + n % 10 = n := Nat.div_add_mod' n 10
      rw [hdecimal, List.append_assoc, ih (n / 10) (by omega) _ (by omega), List.singleton_append,
        readDigits_digit mult (Nat.mod_lt n (by decide)) s (by rw [hsum]; exact small), hsum]

def signed : ℤ → Bytes
  | .ofNat n => decimal n
  | .negSucc n => 45 :: decimal (n + 1)

theorem number_decimal {n : ℕ} (small : (n : ℤ) ≤ longLongMax) : number (decimal n) = .ok n := by
  obtain ⟨d, s, hd, hs⟩ := decimal_head n
  obtain ⟨-, h45, h43, -⟩ := digitByte_reads hd
  have hread := readDigits_decimal 1 n [13] small
  unfold number
  rw [hs] at hread ⊢
  rw [List.cons_append] at hread ⊢
  rw [readLongLong, if_neg h45, if_neg h43, hread, readDigits, if_pos rfl, one_mul]

theorem number_signed {n : ℤ} (above : -longLongMax ≤ n) (below : n ≤ longLongMax) :
    number (signed n) = .ok n := by
  cases n with
  | ofNat n => exact number_decimal below
  | negSucc n =>
    have hread := readDigits_decimal (-1) (n + 1) [13] (by omega)
    unfold number signed
    rw [List.cons_append, readLongLong, if_pos rfl, hread, readDigits, if_pos rfl, neg_one_mul]
    rfl

theorem newline_signed (n : ℤ) : newline (signed n) = none := by
  refine newline_of_not_mem ?_
  cases n with
  | ofNat n => exact not_mem_decimal (by decide)
  | negSucc n =>
    rw [signed, List.mem_cons, not_or]
    exact ⟨by decide, not_mem_decimal (by decide)⟩

/-! ## Answers -/

inductive Answer where
  | error (str : Bytes)
  | status (str : Bytes)
  | integer (n : ℤ)
  | bulk (str : Bytes)
  | nil
  | multi (answers : List Answer)

mutual

def Answer.text : Answer → Bytes
  | .error str => 45 :: (str ++ [13, 10])
  | .status str => 43 :: (str ++ [13, 10])
  | .integer n => 58 :: (signed n ++ [13, 10])
  | .bulk str => 36 :: (decimal str.length ++ 13 :: 10 :: (str ++ [13, 10]))
  | .nil => 36 :: (signed (-1) ++ [13, 10])
  | .multi answers => 42 :: (decimal answers.length ++ 13 :: 10 :: texts answers)

def texts : List Answer → Bytes
  | [] => []
  | a :: answers => a.text ++ texts answers

end

mutual

def Answer.reply : Answer → Reply
  | .error str => .error str
  | .status str => .status str
  | .integer n => .integer n
  | .bulk str => .string str
  | .nil => .nil
  | .multi answers => .array answers.length (elements answers)

def elements : List Answer → List (Option Reply)
  | [] => []
  | a :: answers => some a.reply :: elements answers

end

mutual

/-- What can be written within so many arrays: lines without a newline, numbers that have digits,
arrays that are not too deep. -/
def Answer.Legal : ℕ → Answer → Prop
  | _, .error str => newline str = none
  | _, .status str => newline str = none
  | _, .integer n => -longLongMax ≤ n ∧ n ≤ longLongMax
  | _, .bulk str => (str.length : ℤ) + 2 ≤ longLongMax
  | _, .nil => True
  | around, .multi answers =>
    around < 8 ∧ answers.length ≤ 2147483647 ∧ AllLegal (around + 1) answers

def AllLegal : ℕ → List Answer → Prop
  | _, [] => True
  | around, a :: answers => a.Legal around ∧ AllLegal around answers

end

theorem elements_eq (answers : List Answer) :
    elements answers = (answers.map Answer.reply).map some := by
  induction answers with
  | nil => rfl
  | cons a answers ih => rw [elements, ih]; rfl

theorem multi_spelled {around : ℕ} (answers : List Answer) (shallow : around < 8)
    (few : answers.length ≤ 2147483647) {u : Bytes} {rs : List Reply}
    (inner : Spelled (around + 1) (texts answers) (answers.map Answer.reply))
    (h : Spelled around u rs) : Spelled around ((Answer.multi answers).text ++ u)
      ((Answer.multi answers).reply :: rs) := by
  have hline : newline (decimal answers.length) = none := newline_of_not_mem (not_mem_decimal (by decide))
  have hnumber : number (decimal answers.length) = .ok (answers.length : ℤ) :=
    number_decimal (by unfold longLongMax; omega)
  cases answers with
  | nil => exact .plain (.array (by omega) hline hnumber (by decide) (by decide)) h
  | cons a answers =>
    have harray := Spelled.array (by omega) hline hnumber (by simp)
      (by rw [List.length_map, toInt_small few]) (by simp) inner h
    rw [Answer.text, Answer.reply, elements_eq]
    simpa using harray

mutual

theorem Answer.Legal.spelled {around : ℕ} : (a : Answer) → a.Legal around →
    ∀ {u : Bytes} {rs : List Reply}, Spelled around u rs →
      Spelled around (a.text ++ u) (a.reply :: rs)
  | .error str, hline, u, rs, h => .plain (.error hline) h
  | .status str, hline, u, rs, h => .plain (.status hline) h
  | .integer n, ⟨above, below⟩, u, rs, h =>
    .plain (.integer (newline_signed n) (number_signed above below)) h
  | .bulk str, fits, u, rs, h =>
    have below : (str.length : ℤ) + 2 ≤ longLongMax := fits
    .plain (.string (newline_of_not_mem (not_mem_decimal (by decide))) (number_decimal (by omega)) fits rfl) h
  | .nil, _, u, rs, h =>
    .plain (.nil (newline_signed (-1)) (number_signed (by decide) (by decide)) (by decide)) h
  | .multi answers, ⟨shallow, few, legal⟩, u, rs, h =>
    multi_spelled answers shallow few (AllLegal.spelled answers legal) h

theorem AllLegal.spelled {around : ℕ} : (answers : List Answer) → AllLegal around answers →
    Spelled around (texts answers) (answers.map Answer.reply)
  | [], _ => .nil around
  | a :: answers, ⟨legal, others⟩ => Answer.Legal.spelled a legal (AllLegal.spelled answers others)

end

theorem drain_texts {answers : List Answer} (legal : AllLegal 0 answers) :
    ∃ ts : List RespTree, ts.map replyOf = answers.map Answer.reply ∧
      resp.drain [] (texts answers) = (ts, .wait [] []) := by
  obtain ⟨ts, hts, hspells⟩ := spells_of_spelled (AllLegal.spelled answers legal)
  have hdrain := (hspells [] rfl rfl).drain []
  have hempty : resp.drain [] [] = ([], .wait [] []) := Format.drain_wait (Format.read_wait rfl)
  rw [List.append_nil, hempty, List.append_nil] at hdrain
  exact ⟨ts, hts, hdrain⟩

/-- Answers that are written are read back as their replies, whatever the cuts, and nothing is left
over. -/
theorem receiveAll_written {answers : List Answer} (legal : AllLegal 0 answers)
    {bufs : List Bytes} (sent : bufs.flatten = texts answers)
    (fits : Fits redisReaderCreate bufs) :
    (redisReaderCreate.receiveAll bufs).1 = answers.map Answer.reply ∧
      ∃ r, (redisReaderCreate.receiveAll bufs).2 = .ok r ∧ r.err = 0 ∧ r.unread = [] ∧
        r.reply = none := by
  obtain ⟨ts, hts, hdrain⟩ := drain_texts legal
  obtain ⟨hreplies, hstop⟩ := receiveAll_drain fits
  rw [sent, hdrain] at hreplies hstop
  obtain ⟨r, hr, hready, -⟩ := hstop
  have hlength := hready.length.1
  refine ⟨hreplies.trans hts, r, hr, hready.err, by simpa using hlength, ?_⟩
  obtain ⟨type, head, stands, -⟩ | ⟨-, -, -, -, -, reply⟩ := hready
  · exact stands.reply
  · exact reply

def pairAnswer : Answer := .multi [.integer (-12), .bulk [13, 10], .bulk []]

theorem receiveAll_written_pair :
    (redisReaderCreate.receiveAll [(texts [pairAnswer, .nil]).take 7,
        (texts [pairAnswer, .nil]).drop 7]).1 = [pairAnswer.reply, .nil] ∧
      ∃ r, (redisReaderCreate.receiveAll [(texts [pairAnswer, .nil]).take 7,
        (texts [pairAnswer, .nil]).drop 7]).2 = .ok r ∧ r.err = 0 ∧ r.unread = [] ∧
        r.reply = none :=
  have legal : AllLegal 0 [pairAnswer, .nil] := by
    simp only [pairAnswer, AllLegal, Answer.Legal]
    decide
  receiveAll_written legal (by simp) (fits_of_length (by decide))

end Hwnet.Hiredis
