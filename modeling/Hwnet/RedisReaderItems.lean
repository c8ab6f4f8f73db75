import Hwnet.Nested
import Hwnet.RedisReader
import Mathlib.Data.List.Infix

set_option autoImplicit false

/-!
# The items of a reply

An item is a type byte and a line, with the bytes of the string behind it where it is a bulk string.
Here it is told from the bytes alone, and nothing is consumed before it is complete.
-/
namespace Hwnet.Hiredis

open Nested

/-! ## Lines -/

def newline : Bytes → Option ℕ
  | c :: d :: s => if c = 13 ∧ d = 10 then some 0 else (newline (d :: s)).map (· + 1)
  | _ => none

theorem seekFrom_eq (s : Bytes) (pos : ℕ) (h : pos ≤ s.length) :
    seekFrom s (s.length - 1 - pos) pos = (newline (s.drop pos)).map (· + pos) := by
  induction hn : s.length - 1 - pos generalizing pos with
  | zero =>
    have hlen : (s.drop pos).length ≤ 1 := by rw [List.length_drop]; omega
    match hs : s.drop pos, hlen with
    | [], _ => simp [seekFrom, newline]
    | [c], _ => simp [seekFrom, newline]
  | succ n ih =>
    have hc : pos < s.length := by omega
    have hd : pos + 1 < s.length := by omega
    rw [List.drop_eq_getElem_cons hc, List.drop_eq_getElem_cons hd]
    simp only [seekFrom, newline, List.getElem?_eq_getElem hc, List.getElem?_eq_getElem hd,
      Option.some.injEq]
    split
    · simp
    · rw [ih (pos + 1) (by omega) (by omega), List.drop_eq_getElem_cons hd, Option.map_map]
      congr 1
      funext k
      simp only [Function.comp_apply]
      omega

theorem toInt_small {n : ℕ} (h : n ≤ 2147483647) : toInt n = n := by
  unfold toInt
  rw [Int.bmod_def]
  split <;> omega

/-- The search finds the newline where the length fits an `int`. -/
theorem seekNewline_eq (s : Bytes) (h : s.length ≤ 2147483648) :
    seekNewline s s.length = newline s := by
  have hint : (toInt (s.length - 1)).toNat = s.length - 1 := by
    unfold toInt
    rw [Int.bmod_def]
    split <;> omega
  unfold seekNewline
  rw [hint]
  have hseek := seekFrom_eq s 0 (Nat.zero_le _)
  simpa using hseek

theorem newline_line {line : Bytes} (h : newline line = none) (rest : Bytes) :
    newline (line ++ 13 :: 10 :: rest) = some line.length := by
  induction line with
  | nil => rfl
  | cons c line ih =>
    cases line with
    | nil => simp [newline]
    | cons d line =>
      simp only [newline] at h
      split at h
      · cases h
      · rename_i hcd
        have hline := ih (Option.map_eq_none_iff.mp h)
        simp only [List.cons_append] at hline ⊢
        rw [newline, if_neg hcd, hline]
        rfl

theorem line_cases (l : Bytes) :
    newline l = none ∨ ∃ line rest, newline line = none ∧ l = line ++ 13 :: 10 :: rest := by
  induction l with
  | nil => exact .inl rfl
  | cons c l ih =>
    rcases ih with h | ⟨line, rest, hline, rfl⟩
    · cases l with
      | nil => exact .inl rfl
      | cons d l =>
        by_cases hcd : c = 13 ∧ d = 10
        · exact .inr ⟨[], l, rfl, by rw [hcd.1, hcd.2]; rfl⟩
        · exact .inl (by rw [newline, if_neg hcd, h]; rfl)
    · cases line with
      | nil => exact .inr ⟨[c], rest, rfl, rfl⟩
      | cons d line =>
        by_cases hcd : c = 13 ∧ d = 10
        · exact .inr ⟨[], line ++ 13 :: 10 :: rest, rfl, by rw [hcd.1, hcd.2]; rfl⟩
        · exact .inr ⟨c :: d :: line, rest, by rw [newline, if_neg hcd, hline]; rfl, rfl⟩

def number (line : Bytes) : Except Fault ℤ := readLongLong (line ++ [13])

theorem readDigits_line (mult v : ℤ) (line rest : Bytes) :
    readDigits mult v (line ++ 13 :: rest) = readDigits mult v (line ++ [13]) := by
  induction line generalizing v with
  | nil => rfl
  | cons c line ih => simp only [List.cons_append, readDigits, ih]

theorem readLongLong_line (line rest : Bytes) :
    readLongLong (line ++ 13 :: rest) = number line := by
  unfold number
  cases line with
  | nil => rfl
  | cons c line =>
    simp only [List.cons_append, readLongLong, readDigits_line]
    have hcons := readDigits_line 1 0 (c :: line) rest
    rw [List.cons_append, List.cons_append] at hcons
    rw [hcons]

/-! ## Items -/

inductive Refusal where
  | fault (fault : Fault)
  | protocol (text : String)
  deriving DecidableEq

abbrev RespItem := Item UInt8 Reply ℤ Refusal

/-- The array around was announced with more elements than it was made for. -/
def doomed : List ℤ → Bool
  | elements :: _ => elements ≤ 0
  | [] => false

def made (around : List ℤ) (item : RespItem) : RespItem :=
  if doomed around then .fail (.fault .element) else item

def numbered (line : Bytes) (item : ℤ → RespItem) : RespItem :=
  match number line with
  | .ok n => item n
  | .error fault => .fail (.fault fault)

def bulk (around : List ℤ) (rest : Bytes) (len : ℤ) : RespItem :=
  if len < 0 then made around (.leaf .nil rest)
  else if longLongMax < len + 2 then .fail (.fault .overflow)
  else if len.toNat + 2 ≤ rest.length then
    made around (.leaf (.string (rest.take len.toNat)) (rest.drop (len.toNat + 2)))
  else .wait

def multiBulk (around : List ℤ) (rest : Bytes) (elements : ℤ) : RespItem :=
  if elements = -1 then made around (.leaf .nil rest)
  else if 0 < elements then
    made around (.node (toInt elements) ((toInt elements).toNat - 1) rest)
  else made around (.leaf (createArrayObject (toInt elements)) rest)

def ofLine (around : List ℤ) (line rest : Bytes) : ReplyType → RespItem
  | .error => made around (.leaf (.error line) rest)
  | .status => made around (.leaf (.status line) rest)
  | .integer => numbered line fun n => made around (.leaf (.integer n) rest)
  | .string => numbered line (bulk around rest)
  | .array => numbered line (multiBulk around rest)
  | .nil => .fail (.fault .assertion)

/-- The item of a type; an array within eight others is refused before its line. -/
def typed (around : List ℤ) (type : ReplyType) (l : Bytes) : RespItem :=
  if type = .array ∧ around.length = 8 then .fail (.protocol depthText)
  else match newline l with
    | some len => ofLine around (l.take len) (l.drop (len + 2)) type
    | none => .wait

def refused (byte : UInt8) : Refusal :=
  match protocolByte byte with
  | .ok text => .protocol text
  | .error fault => .fault fault

def item (around : List ℤ) : Bytes → RespItem
  | [] => .wait
  | byte :: l =>
    match replyType byte with
    | some type => typed around type l
    | none => .fail (refused byte)

theorem typed_line {around : List ℤ} {type : ReplyType} {line : Bytes}
    (shallow : ¬ (type = .array ∧ around.length = 8)) (h : newline line = none) (rest : Bytes) :
    typed around type (line ++ 13 :: 10 :: rest) = ofLine around line rest type := by
  simp [typed, shallow, newline_line h]

theorem typed_wait {around : List ℤ} {type : ReplyType} {l : Bytes}
    (shallow : ¬ (type = .array ∧ around.length = 8)) (h : newline l = none) :
    typed around type l = .wait := by
  simp [typed, shallow, h]

/-! ## The format -/

theorem made_leaf (around : List ℤ) (v : Reply) (l behind : Bytes) :
    made around (.leaf v behind) = (made around (.leaf v l)).put behind := by
  unfold made
  split <;> rfl

theorem made_node (around : List ℤ) (elements : ℤ) (more : ℕ) (l behind : Bytes) :
    made around (.node elements more behind) =
      (made around (.node elements more l)).put behind := by
  unfold made
  split <;> rfl

theorem bulk_put (around : List ℤ) (l : Bytes) (len : ℤ) : bulk around l len = .wait ∨
    ∃ p rest, l = p ++ rest ∧
      ∀ behind, bulk around (p ++ behind) len = (bulk around l len).put behind := by
  unfold bulk
  split
  · exact .inr ⟨[], l, rfl, made_leaf around .nil l⟩
  · split
    · exact .inr ⟨[], l, rfl, fun _ => rfl⟩
    · split
      · rename_i enough
        refine .inr ⟨l.take (len.toNat + 2), l.drop (len.toNat + 2),
          (List.take_append_drop ..).symm, fun behind => ?_⟩
        have htake : (l.take (len.toNat + 2)).length = len.toNat + 2 :=
          List.length_take_of_le enough
        rw [if_pos (by rw [List.length_append]; omega),
          List.take_append_of_le_length (by omega), List.take_take,
          List.drop_append_of_le_length (by omega), List.drop_eq_nil_of_le (by omega),
          Nat.min_eq_left (by omega)]
        exact made_leaf ..
      · exact .inl rfl

theorem multiBulk_put (around : List ℤ) (l behind : Bytes) (elements : ℤ) :
    multiBulk around behind elements = (multiBulk around l elements).put behind := by
  unfold multiBulk
  split
  · exact made_leaf ..
  · split
    · exact made_node ..
    · exact made_leaf ..

theorem ofLine_put (around : List ℤ) (line l : Bytes) (type : ReplyType) :
    ofLine around line l type = .wait ∨ ∃ p rest, l = p ++ rest ∧
      ∀ behind, ofLine around line (p ++ behind) type = (ofLine around line l type).put behind := by
  cases type with
  | error | status => exact .inr ⟨[], l, rfl, made_leaf around _ l⟩
  | nil => exact .inr ⟨[], l, rfl, fun _ => rfl⟩
  | integer =>
    refine .inr ⟨[], l, rfl, fun behind => ?_⟩
    simp only [ofLine, numbered]
    cases number line with
    | ok n => exact made_leaf around _ l behind
    | error fault => rfl
  | array =>
    refine .inr ⟨[], l, rfl, fun behind => ?_⟩
    simp only [ofLine, numbered]
    cases number line with
    | ok n => exact multiBulk_put around l behind n
    | error fault => rfl
  | string =>
    simp only [ofLine, numbered]
    cases number line with
    | ok n => exact bulk_put around l n
    | error fault => exact .inr ⟨[], l, rfl, fun _ => rfl⟩

theorem typed_put (around : List ℤ) (type : ReplyType) (l : Bytes) :
    typed around type l = .wait ∨ ∃ p rest, l = p ++ rest ∧
      ∀ behind, typed around type (p ++ behind) = (typed around type l).put behind := by
  by_cases deep : type = .array ∧ around.length = 8
  · exact .inr ⟨[], l, rfl, fun _ => by simp [typed, deep, Item.put]⟩
  · rcases line_cases l with h | ⟨line, rest, hline, rfl⟩
    · exact .inl (typed_wait deep h)
    · rw [typed_line deep hline]
      refine (ofLine_put around line rest type).imp_right ?_
      rintro ⟨p, rest, rfl, hp⟩
      refine ⟨line ++ 13 :: 10 :: p, rest, by simp, fun behind => ?_⟩
      have happend : line ++ 13 :: 10 :: p ++ behind = line ++ 13 :: 10 :: (p ++ behind) := by simp
      rw [happend, typed_line deep hline]
      exact hp behind

theorem item_spelled (around : List ℤ) (l : Bytes) (h : item around l ≠ .wait) :
    ∃ w rest, w ≠ [] ∧ l = w ++ rest ∧
      ∀ behind, item around (w ++ behind) = (item around l).put behind := by
  cases l with
  | nil => exact absurd rfl h
  | cons byte l =>
    simp only [item] at h ⊢
    cases type : replyType byte with
    | none => exact ⟨[byte], l, by simp, rfl, fun _ => by simp [type, Item.put]⟩
    | some type' =>
      rw [type] at h
      obtain hwait | ⟨p, rest, rfl, hp⟩ := typed_put around type' l
      · exact absurd hwait h
      · exact ⟨byte :: p, rest, by simp, rfl, fun behind => by simpa [type] using hp behind⟩

def resp : Format UInt8 Reply ℤ Refusal where
  item := item
  spelled := item_spelled

end Hwnet.Hiredis
