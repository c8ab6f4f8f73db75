import Hwnet.RedisReaderStream

set_option autoImplicit false

/-!
# The replies that are accepted

Which bytes are read as which replies: the format with what the reader leaves unchecked, such as
the two bytes behind a bulk string, what follows a carriage return in a number, and the sign of a
count.
-/
namespace Hwnet.Hiredis

open Nested

/-! ## The language -/

/-- A reply without elements to be read, within so many arrays. -/
inductive Plain (around : ℕ) : Bytes → Reply → Prop where
  | error {line : Bytes} (hline : newline line = none) :
      Plain around (45 :: (line ++ [13, 10])) (.error line)
  | status {line : Bytes} (hline : newline line = none) :
      Plain around (43 :: (line ++ [13, 10])) (.status line)
  | integer {line : Bytes} {n : ℤ} (hline : newline line = none) (hn : number line = .ok n) :
      Plain around (58 :: (line ++ [13, 10])) (.integer n)
  | string {line str behind : Bytes} (hline : newline line = none)
      (hn : number line = .ok str.length) (fits : str.length + 2 ≤ longLongMax)
      (two : behind.length = 2) :
      Plain around (36 :: (line ++ 13 :: 10 :: (str ++ behind))) (.string str)
  | nil {line : Bytes} {n : ℤ} (hline : newline line = none) (hn : number line = .ok n)
      (negative : n < 0) : Plain around (36 :: (line ++ [13, 10])) .nil
  | nilArray {line : Bytes} (shallow : around ≠ 8) (hline : newline line = none)
      (hn : number line = .ok (-1)) : Plain around (42 :: (line ++ [13, 10])) .nil
  | array {line : Bytes} {n : ℤ} (shallow : around ≠ 8) (hline : newline line = none)
      (hn : number line = .ok n) (other : n ≠ -1) (empty : n ≤ 0) :
      Plain around (42 :: (line ++ [13, 10])) (createArrayObject (toInt n))

inductive Spelled : ℕ → Bytes → List Reply → Prop where
  | nil (around : ℕ) : Spelled around [] []
  | plain {around : ℕ} {w u : Bytes} {r : Reply} {rs : List Reply} (reply : Plain around w r)
      (behind : Spelled around u rs) : Spelled around (w ++ u) (r :: rs)
  | array {around : ℕ} {line w u : Bytes} {n : ℤ} {es rs : List Reply} (shallow : around ≠ 8)
      (hline : newline line = none) (hn : number line = .ok n) (positive : 0 < n)
      (count : (es.length : ℤ) = toInt n) (some_element : es ≠ [])
      (elements : Spelled (around + 1) w es) (behind : Spelled around u rs) :
      Spelled around (42 :: (line ++ 13 :: 10 :: (w ++ u)))
        (.array es.length (es.map some) :: rs)

/-! ## The items of the language -/

section Items
variable {gs : List ℤ} {line w rest : Bytes} {v : Reply}

theorem made_eq (free : doomed gs = false) (it : RespItem) : made gs it = it := by
  simp [made, free]

theorem item_line {byte : UInt8} {type : ReplyType} (hbyte : replyType byte = some type)
    (shallow : ¬ (type = .array ∧ gs.length = 8)) (hline : newline line = none) (rest : Bytes) :
    item gs (byte :: (line ++ 13 :: 10 :: rest)) = ofLine gs line rest type := by
  simp only [item, hbyte]
  exact typed_line shallow hline rest

theorem Plain.item (h : Plain gs.length w v) (free : doomed gs = false) :
    item gs w = .leaf v [] := by
  cases h with
  | error hline => rw [item_line rfl (by simp) hline, ofLine, made_eq free]
  | status hline => rw [item_line rfl (by simp) hline, ofLine, made_eq free]
  | @integer line n hline hn =>
    rw [item_line rfl (by simp) hline, ofLine, numbered, hn]
    exact made_eq free (.leaf (.integer n) [])
  | @string line str behind hline hn fits two =>
    rw [item_line rfl (by simp) hline, ofLine, numbered, hn]
    change bulk gs (str ++ behind) str.length = _
    unfold bulk
    rw [if_neg (by omega), if_neg (by omega), if_pos (by simp [two]), made_eq free]
    simp [two]
  | nil hline hn negative =>
    rw [item_line rfl (by simp) hline, ofLine, numbered, hn]
    change bulk gs [] _ = _
    rw [bulk, if_pos negative, made_eq free]
  | nilArray shallow hline hn =>
    rw [item_line rfl (by simp [shallow]) hline, ofLine, numbered, hn]
    change multiBulk gs [] _ = _
    rw [multiBulk, if_pos rfl, made_eq free]
  | array shallow hline hn other empty =>
    rw [item_line rfl (by simp [shallow]) hline, ofLine, numbered, hn]
    change multiBulk gs [] _ = _
    rw [multiBulk, if_neg other, if_neg (by omega), made_eq free]

theorem item_array {n : ℤ} (free : doomed gs = false) (shallow : gs.length ≠ 8)
    (hline : newline line = none) (hn : number line = .ok n) (positive : 0 < n) :
    item gs (42 :: (line ++ [13, 10])) = .node (toInt n) ((toInt n).toNat - 1) [] := by
  rw [item_line rfl (by simp [shallow]) hline, ofLine, numbered, hn]
  change multiBulk gs [] _ = _
  rw [multiBulk, if_neg (by omega), if_pos positive, made_eq free]

theorem made_inv {it it' : RespItem} (h : made gs it = it') (fine : ∀ e, it' ≠ .fail e) :
    doomed gs = false ∧ it = it' := by
  unfold made at h
  split at h
  · exact absurd h.symm (fine _)
  · rename_i free
    exact ⟨by simpa using free, h⟩

theorem numbered_inv {next : ℤ → RespItem} {it : RespItem} (h : numbered line next = it)
    (fine : ∀ e, it ≠ .fail e) : ∃ n, number line = .ok n ∧ next n = it := by
  unfold numbered at h
  cases hn : number line with
  | ok n =>
    rw [hn] at h
    exact ⟨n, rfl, h⟩
  | error fault =>
    rw [hn] at h
    exact absurd h.symm (fine _)

/-- A complete item is a line of one of the types, with what its string takes. -/
theorem item_inv {it : RespItem} (h : item gs w = it) (fine : ∀ e, it ≠ .fail e)
    (ready : it ≠ .wait) : ∃ byte type line rest, replyType byte = some type ∧
      ¬ (type = .array ∧ gs.length = 8) ∧ newline line = none ∧
      w = byte :: (line ++ 13 :: 10 :: rest) ∧ ofLine gs line rest type = it := by
  cases w with
  | nil => exact absurd h.symm ready
  | cons byte l =>
    simp only [item] at h
    cases hbyte : replyType byte with
    | none =>
      rw [hbyte] at h
      exact absurd h.symm (fine _)
    | some type =>
      rw [hbyte] at h
      change typed gs type l = it at h
      by_cases deep : type = .array ∧ gs.length = 8
      · simp only [typed, deep, and_self, if_true] at h
        exact absurd h.symm (fine _)
      · rcases line_cases l with hnone | ⟨line, rest, hline, rfl⟩
        · rw [typed_wait deep hnone] at h
          exact absurd h.symm ready
        · rw [typed_line deep hline] at h
          exact ⟨byte, type, line, rest, hbyte, deep, hline, rfl, h⟩

theorem byte_of_type {byte : UInt8} {type : ReplyType} (h : replyType byte = some type) :
    (byte = 45 ∧ type = .error) ∨ (byte = 43 ∧ type = .status) ∨ (byte = 58 ∧ type = .integer) ∨
      (byte = 36 ∧ type = .string) ∨ (byte = 42 ∧ type = .array) := by
  unfold replyType at h
  repeat' split at h
  all_goals simp_all

theorem bulk_inv {n : ℤ} {rest : Bytes} (h : bulk gs rest n = .leaf v []) :
    doomed gs = false ∧ (n < 0 ∧ rest = [] ∧ v = .nil ∨ ∃ str behind, rest = str ++ behind ∧
      behind.length = 2 ∧ n = str.length ∧ n + 2 ≤ longLongMax ∧ v = .string str) := by
  unfold bulk at h
  split at h
  · rename_i negative
    obtain ⟨free, h⟩ := made_inv h (by simp)
    cases h
    exact ⟨free, .inl ⟨negative, rfl, rfl⟩⟩
  · split at h
    · cases h
    · split at h
      · rename_i enough
        obtain ⟨free, h⟩ := made_inv h (by simp)
        simp only [Item.leaf.injEq, List.drop_eq_nil_iff] at h
        refine ⟨free, .inr ⟨rest.take n.toNat, rest.drop n.toNat, (List.take_append_drop ..).symm,
          ?_, ?_, by omega, h.1.symm⟩⟩
        · rw [List.length_drop]
          omega
        · rw [List.length_take]
          omega
      · cases h

theorem multiBulk_inv {n : ℤ} {rest : Bytes} (h : multiBulk gs rest n = .leaf v []) :
    doomed gs = false ∧ rest = [] ∧
      (n = -1 ∧ v = .nil ∨ n ≠ -1 ∧ n ≤ 0 ∧ v = createArrayObject (toInt n)) := by
  unfold multiBulk at h
  split at h
  · rename_i hn
    obtain ⟨free, h⟩ := made_inv h (by simp)
    cases h
    exact ⟨free, rfl, .inl ⟨hn, rfl⟩⟩
  · rename_i other
    split at h
    · obtain ⟨-, h⟩ := made_inv h (by simp)
      cases h
    · obtain ⟨free, h⟩ := made_inv h (by simp)
      cases h
      exact ⟨free, rfl, .inr ⟨other, by omega, rfl⟩⟩

theorem plain_of_item (h : item gs w = .leaf v []) :
    doomed gs = false ∧ Plain gs.length w v := by
  obtain ⟨byte, type, line, rest, hbyte, deep, hline, rfl, h⟩ := item_inv h (by simp) (by simp)
  rcases byte_of_type hbyte with ⟨rfl, rfl⟩ | ⟨rfl, rfl⟩ | ⟨rfl, rfl⟩ | ⟨rfl, rfl⟩ | ⟨rfl, rfl⟩
  · obtain ⟨free, h⟩ := made_inv h (by simp)
    cases h
    exact ⟨free, .error hline⟩
  · obtain ⟨free, h⟩ := made_inv h (by simp)
    cases h
    exact ⟨free, .status hline⟩
  · obtain ⟨n, hn, h⟩ := numbered_inv h (by simp)
    obtain ⟨free, h⟩ := made_inv h (by simp)
    cases h
    exact ⟨free, .integer hline hn⟩
  · obtain ⟨n, hn, h⟩ := numbered_inv h (by simp)
    obtain ⟨free, ⟨negative, rfl, rfl⟩ | ⟨str, behind, rfl, two, rfl, fits, rfl⟩⟩ := bulk_inv h
    · exact ⟨free, .nil hline hn negative⟩
    · exact ⟨free, .string hline hn fits two⟩
  · obtain ⟨n, hn, h⟩ := numbered_inv h (by simp)
    have shallow : gs.length ≠ 8 := fun hlength => deep ⟨rfl, hlength⟩
    obtain ⟨free, rfl, ⟨rfl, rfl⟩ | ⟨other, empty, rfl⟩⟩ := multiBulk_inv h
    · exact ⟨free, .nilArray shallow hline hn⟩
    · exact ⟨free, .array shallow hline hn other empty⟩

theorem array_of_item {g : ℤ} {more : ℕ} (h : item gs w = .node g more []) :
    doomed gs = false ∧ gs.length ≠ 8 ∧ ∃ line n, newline line = none ∧ number line = .ok n ∧
      0 < n ∧ g = toInt n ∧ more = (toInt n).toNat - 1 ∧ w = 42 :: (line ++ [13, 10]) := by
  obtain ⟨byte, type, line, rest, hbyte, deep, hline, rfl, h⟩ := item_inv h (by simp) (by simp)
  rcases byte_of_type hbyte with ⟨rfl, rfl⟩ | ⟨rfl, rfl⟩ | ⟨rfl, rfl⟩ | ⟨rfl, rfl⟩ | ⟨rfl, rfl⟩
  · cases (made_inv h (by simp)).2
  · cases (made_inv h (by simp)).2
  · obtain ⟨n, hn, h⟩ := numbered_inv h (by simp)
    cases (made_inv h (by simp)).2
  · obtain ⟨n, hn, h⟩ := numbered_inv h (by simp)
    unfold bulk at h
    split at h
    · cases (made_inv h (by simp)).2
    · split at h
      · cases h
      · split at h
        · cases (made_inv h (by simp)).2
        · cases h
  · obtain ⟨n, hn, h⟩ := numbered_inv h (by simp)
    have shallow : gs.length ≠ 8 := fun hlength => deep ⟨rfl, hlength⟩
    unfold multiBulk at h
    split at h
    · cases (made_inv h (by simp)).2
    · split at h
      · rename_i positive
        obtain ⟨free, h⟩ := made_inv h (by simp)
        cases h
        exact ⟨free, shallow, line, n, hline, hn, positive, rfl, rfl, rfl⟩
      · cases (made_inv h (by simp)).2

end Items

/-! ## The reader reads the language -/

theorem elementsOf_map (ts : List RespTree) : elementsOf ts = (ts.map replyOf).map some := by
  rw [elementsOf_eq, List.map_map]

/-- In an array without room nothing is spelled. -/
theorem Spells.roomy {gs : List ℤ} {w : Bytes} {ts : List RespTree} (h : resp.Spells gs w ts)
    (some_tree : ts ≠ []) : doomed gs = false := by
  cases h with
  | nil => exact absurd rfl some_tree
  | leaf hitem => exact (plain_of_item hitem).1
  | node hitem => exact (array_of_item hitem).1

theorem spelled_of_spells {gs : List ℤ} {w : Bytes} {ts : List RespTree}
    (h : resp.Spells gs w ts) : Spelled gs.length w (ts.map replyOf) := by
  induction h with
  | nil gs => exact .nil _
  | leaf hitem _ ih => exact .plain (plain_of_item hitem).2 ih
  | @node gs w x u g more xs us hitem children count _ ihx ih =>
    obtain ⟨-, shallow, line, n, hline, hn, positive, rfl, rfl, rfl⟩ := array_of_item hitem
    have hne : xs ≠ [] := by
      rintro rfl
      cases count
    have room : doomed (toInt n :: gs) = false := Spells.roomy children hne
    have hpos : 0 < toInt n := by simpa [doomed] using room
    have hrange := toInt_range n
    have hlength : (((xs.map replyOf).length : ℕ) : ℤ) = toInt n := by
      rw [List.length_map]
      omega
    have hsize : toSize (toInt n) = (xs.map replyOf).length := by
      unfold toSize
      omega
    have harray := Spelled.array shallow hline hn positive hlength (by simpa using hne) ihx ih
    rw [List.map_cons, replyOf, elementsOf_map, hsize]
    simpa using harray

theorem spells_of_spelled {around : ℕ} {w : Bytes} {rs : List Reply} (h : Spelled around w rs) :
    ∃ ts : List RespTree, ts.map replyOf = rs ∧ ∀ gs : List ℤ, gs.length = around →
      doomed gs = false → resp.Spells gs w ts := by
  induction h with
  | nil around => exact ⟨[], rfl, fun gs _ _ => .nil gs⟩
  | @plain around w u r rs reply _ ih =>
    obtain ⟨ts, rfl, hts⟩ := ih
    refine ⟨.leaf r :: ts, rfl, fun gs hgs free => ?_⟩
    subst hgs
    exact .leaf (reply.item free) (hts gs rfl free)
  | @array around line w u n es rs shallow hline hn positive count hne _ _ ihe ih =>
    obtain ⟨xs, rfl, hxs⟩ := ihe
    obtain ⟨ts, rfl, hts⟩ := ih
    have hrange := toInt_range n
    have hlength := List.length_pos_iff.mpr hne
    have hsize : toSize (toInt n) = (xs.map replyOf).length := by
      unfold toSize
      omega
    refine ⟨.node (toInt n) xs :: ts, ?_, fun gs hgs free => ?_⟩
    · rw [List.map_cons, replyOf, elementsOf_map, hsize]
    · subst hgs
      have hchildren := hxs (toInt n :: gs) rfl (by
        simp only [doomed, decide_eq_false_iff_not]
        omega)
      have hitem : resp.item gs (42 :: (line ++ [13, 10])) =
          .node (toInt n) ((toInt n).toNat - 1) [] := item_array free shallow hline hn positive
      have hmore : xs.length = (toInt n).toNat - 1 + 1 := by
        rw [List.length_map] at count hlength
        omega
      have hnode := Format.Spells.node hitem hchildren hmore (hts gs rfl free)
      simpa using hnode

/-- A reply is given where one is spelled and nowhere else, and all of its bytes are consumed. -/
theorem getReply_iff {l rest : Bytes} {reply : Reply} (small : l.length < 2147483648) :
    (∃ r, Reader.redisReaderGetReply { redisReaderCreate with buf := l } =
        .ok (r, some reply, true) ∧ r.unread = rest) ↔
      ∃ w, l = w ++ rest ∧ Spelled 0 w [reply] := by
  have hready : Ready { redisReaderCreate with buf := l } [] l := (create_ready.feed l).1
  have hgets := getReply_gets hready small fun hbuf => by
    obtain rfl : l = [] := hbuf
    rfl
  constructor
  · rintro ⟨r, hr, rfl⟩
    cases hread : resp.read [] l with
    | wait fs' rest =>
      rw [hread] at hgets
      obtain ⟨s, hs, -⟩ := hgets
      cases hr.symm.trans hs
    | fail e =>
      rw [hread] at hgets
      cases e with
      | fault fault => cases hr.symm.trans (show _ = Except.error fault from hgets)
      | protocol text =>
        cases hr.symm.trans (show _ = Except.ok (failed text, none, false) from hgets)
    | tree t rest =>
      rw [hread] at hgets
      obtain ⟨s, hs, -, rfl⟩ := hgets
      cases hr.symm.trans hs
      obtain ⟨w, hw, hspells⟩ := Format.read_iff.mp hread
      exact ⟨w, hw, spelled_of_spells hspells⟩
  · rintro ⟨w, rfl, hspelled⟩
    obtain ⟨ts, hts, hspells⟩ := spells_of_spelled hspelled
    obtain ⟨t, rfl, rfl⟩ := List.map_eq_singleton_iff.mp hts
    have hread : resp.read [] (w ++ rest) = .tree t rest :=
      Format.read_iff.mpr ⟨w, rfl, hspells [] rfl rfl⟩
    rw [hread] at hgets
    obtain ⟨s, hs, -, hrest⟩ := hgets
    exact ⟨s, hs, hrest⟩

theorem getReply_iff_seven :
    ∃ r, Reader.redisReaderGetReply { redisReaderCreate with buf := [58, 55, 13, 10, 43] } =
      .ok (r, some (.integer 7), true) ∧ r.unread = [43] := by
  have seven : Spelled 0 (58 :: ([55] ++ [13, 10]) ++ []) [.integer 7] :=
    .plain (.integer rfl rfl) (.nil 0)
  exact (getReply_iff (by decide)).mpr ⟨_, rfl, seven⟩

end Hwnet.Hiredis
