import Hwnet.RedisReaderLanguage

set_option autoImplicit false

/-!
# What the reader never does

Whatever the bytes, the reader stays within its stack and its buffer and none of its assertions
fails. A number may overflow and an array may be given an element that it has no room for, but not
where there are never ten digits in a row; a byte from 0x80 up may stand where a type byte should.
-/
namespace Hwnet.Hiredis

open Nested

/-! ## Numbers -/

def isDigit (c : UInt8) : Bool := 48 ≤ c && c < 58

def Modest (l : Bytes) : Prop := ∀ ds, ds <:+: l → ds.all isDigit = true → ds.length ≤ 9

theorem Modest.within {l l' : Bytes} (h : Modest l) (part : l' <:+: l) : Modest l' :=
  fun ds hds => h ds (hds.trans part)

theorem readDigits_fault (mult v : ℤ) (line : Bytes) (fault : Fault)
    (h : readDigits mult v (line ++ [13]) = .error fault) : fault = .overflow := by
  induction line generalizing v with
  | nil => cases h
  | cons c line ih =>
    rw [List.cons_append, readDigits] at h
    split at h
    · cases h
    · split at h
      · split at h
        · exact ih _ h
        · cases h
          rfl
      · cases h

theorem number_fault {line : Bytes} {fault : Fault} (h : number line = .error fault) :
    fault = .overflow := by
  unfold number at h
  cases line with
  | nil => cases h
  | cons c line =>
    rw [List.cons_append, readLongLong] at h
    split at h
    · exact readDigits_fault _ _ _ _ h
    · split at h
      · exact readDigits_fault _ _ _ _ h
      · exact readDigits_fault 1 0 (c :: line) _ h

def digitBound : ℕ → ℤ
  | 0 => 1
  | k + 1 => 10 * digitBound k

theorem digitBound_le {k : ℕ} (h : k ≤ 9) : digitBound k ≤ 1000000000 := by
  have growing : ∀ i k, digitBound k ≤ digitBound (k + i) := by
    intro i
    induction i with
    | zero => exact fun k => Int.le_refl _
    | succ i ih =>
      intro k
      have hk := ih k
      have hpos : ∀ j, 0 < digitBound j := by
        intro j
        induction j with
        | zero => decide
        | succ j ihj =>
          change 0 < 10 * digitBound j
          omega
      have hbound := hpos (k + i)
      change digitBound k ≤ 10 * digitBound (k + i)
      omega
  have hgrow := growing (9 - k) k
  rw [show k + (9 - k) = 9 by omega] at hgrow
  exact hgrow

theorem small_of_bound {mult v : ℤ} (hmult : mult = 1 ∨ mult = -1) {k : ℕ} (hk : k ≤ 9)
    (lower : 0 ≤ v) (upper : v < digitBound k) :
    -1000000000 < mult * v ∧ mult * v < 1000000000 := by
  have hbound := digitBound_le hk
  rcases hmult with rfl | rfl <;> omega

/-- With at most nine digits in a row a number stays below a thousand million. -/
theorem readDigits_modest {mult : ℤ} (hmult : mult = 1 ∨ mult = -1) (k : ℕ) (v : ℤ) (line : Bytes)
    (lower : 0 ≤ v) (upper : v < digitBound k)
    (few : ∀ ds, ds <+: line → ds.all isDigit = true → k + ds.length ≤ 9) :
    ∃ n, readDigits mult v (line ++ [13]) = .ok n ∧ -1000000000 < n ∧ n < 1000000000 := by
  induction line generalizing k v with
  | nil => exact ⟨mult * v, rfl, small_of_bound hmult (few [] List.nil_prefix rfl) lower upper⟩
  | cons c line ih =>
    rw [List.cons_append, readDigits]
    split
    · exact ⟨mult * v, rfl, small_of_bound hmult (few [] List.nil_prefix rfl) lower upper⟩
    · split
      · rename_i hdigit
        obtain ⟨h48, h58⟩ := hdigit
        have hnat48 : 48 ≤ c.toNat := h48
        have hnat58 : c.toNat < 58 := h58
        have few' : ∀ ds, ds <+: line → ds.all isDigit = true → k + 1 + ds.length ≤ 9 := by
          intro ds hds hall
          have hcons := few (c :: ds) (List.cons_prefix_cons.mpr ⟨rfl, hds⟩) (by
            simp [isDigit, h48, h58, hall])
          rw [List.length_cons] at hcons
          omega
        have hbound : v * 10 + (c.toNat - 48) < digitBound (k + 1) := by
          change _ < 10 * digitBound k
          omega
        have htop := digitBound_le (by simpa using few' [] List.nil_prefix rfl : k + 1 ≤ 9)
        rw [if_pos (by unfold longLongMax; omega)]
        exact ih (k + 1) _ (by omega) hbound few'
      · exact ⟨-1, rfl, by decide, by decide⟩

theorem number_modest {line : Bytes} (h : Modest line) :
    ∃ n, number line = .ok n ∧ -1000000000 < n ∧ n < 1000000000 := by
  have few : ∀ line', line' <:+ line → ∀ ds, ds <+: line' → ds.all isDigit = true →
      0 + ds.length ≤ 9 := fun line' hsuffix ds hds hall => by
    have hlength := h ds (hds.isInfix.trans hsuffix.isInfix) hall
    omega
  unfold number
  cases line with
  | nil => exact ⟨0, rfl, by decide, by decide⟩
  | cons c line =>
    rw [List.cons_append, readLongLong]
    split
    · exact readDigits_modest (.inr rfl) 0 0 line (by decide) (by decide)
        (few line (List.suffix_cons c line))
    · split
      · exact readDigits_modest (.inl rfl) 0 0 line (by decide) (by decide)
          (few line (List.suffix_cons c line))
      · exact readDigits_modest (.inl rfl) 0 0 (c :: line) (by decide) (by decide)
          (few (c :: line) (List.suffix_refl _))

/-! ## Items -/

section Items
variable {gs : List ℤ} {l : Bytes}

theorem made_fault {it : RespItem} {fault : Fault} (h : made gs it = .fail (.fault fault)) :
    fault = .element ∧ doomed gs = true ∨ it = .fail (.fault fault) := by
  unfold made at h
  split at h
  · rename_i hdoomed
    cases h
    exact .inl ⟨rfl, hdoomed⟩
  · exact .inr h

theorem numbered_fault {line : Bytes} {next : ℤ → RespItem} {fault : Fault}
    (h : numbered line next = .fail (.fault fault)) :
    fault = .overflow ∧ number line = .error .overflow ∨
      ∃ n, number line = .ok n ∧ next n = .fail (.fault fault) := by
  unfold numbered at h
  cases hn : number line with
  | ok n =>
    rw [hn] at h
    exact .inr ⟨n, rfl, h⟩
  | error fault' =>
    rw [hn] at h
    cases h
    obtain rfl := number_fault hn
    exact .inl ⟨rfl, rfl⟩

/-- A fault is an overflow of the number of a line or an element without room. -/
theorem ofLine_fault {line rest : Bytes} {type : ReplyType} (known : type ≠ .nil) {fault : Fault}
    (h : ofLine gs line rest type = .fail (.fault fault)) :
    fault = .element ∧ doomed gs = true ∨ fault = .overflow ∧
      ∀ n, number line = .ok n → longLongMax < n + 2 := by
  have through : ∀ {it : RespItem}, it ≠ .fail (.fault fault) →
      made gs it = .fail (.fault fault) →
      fault = .element ∧ doomed gs = true ∨ fault = .overflow ∧
        ∀ n, number line = .ok n → longLongMax < n + 2 :=
    fun hit hmade => .inl ((made_fault hmade).resolve_right hit)
  cases type with
  | error | status => exact through (by simp) h
  | nil => exact absurd rfl known
  | integer =>
    obtain ⟨rfl, hfault⟩ | ⟨n, hn, h⟩ := numbered_fault h
    · exact .inr ⟨rfl, fun n hn => by cases hfault.symm.trans hn⟩
    · exact through (by simp) h
  | array =>
    obtain ⟨rfl, hfault⟩ | ⟨n, hn, h⟩ := numbered_fault h
    · exact .inr ⟨rfl, fun n hn => by cases hfault.symm.trans hn⟩
    · unfold multiBulk at h
      split at h
      · exact through (by simp) h
      · split at h <;> exact through (by simp) h
  | string =>
    obtain ⟨rfl, hfault⟩ | ⟨n, hn, h⟩ := numbered_fault h
    · exact .inr ⟨rfl, fun n hn => by cases hfault.symm.trans hn⟩
    · unfold bulk at h
      split at h
      · exact through (by simp) h
      · split at h
        · rename_i hlong
          cases h
          refine .inr ⟨rfl, fun n' hn' => ?_⟩
          cases hn.symm.trans hn'
          exact hlong
        · split at h
          · exact through (by simp) h
          · cases h

theorem chrtos_fault {byte : UInt8} {fault : Fault} (h : chrtos byte = .error fault) :
    fault = .ctype ∧ 128 ≤ byte.toNat := by
  unfold chrtos at h
  dsimp only at h
  split at h
  case h_8 =>
    split at h
    · next hbyte =>
      cases h
      exact ⟨rfl, hbyte⟩
    · split at h <;> cases h
  all_goals cases h

theorem refused_fault {byte : UInt8} {fault : Fault} (h : refused byte = .fault fault) :
    fault = .ctype ∧ 128 ≤ byte.toNat := by
  unfold refused protocolByte at h
  cases hchar : chrtos byte with
  | ok cbuf =>
    rw [hchar] at h
    cases h
  | error fault' =>
    rw [hchar] at h
    cases h
    exact chrtos_fault hchar

/-- A fault is an element without room, a number that overflows in the line in front, or a byte that
is no type and no ASCII character. -/
theorem item_fault {fault : Fault} (h : item gs l = .fail (.fault fault)) :
    fault = .element ∧ doomed gs = true ∨ (fault = .overflow ∧
      ∃ line, line <:+: l ∧ ∀ n, number line = .ok n → longLongMax < n + 2) ∨
      fault = .ctype ∧ ∃ byte ∈ l, 128 ≤ byte.toNat := by
  cases l with
  | nil => cases h
  | cons byte l =>
    simp only [item] at h
    cases hbyte : replyType byte with
    | none =>
      rw [hbyte] at h
      have hrefused : refused byte = .fault fault := Item.fail.inj h
      obtain ⟨rfl, hhigh⟩ := refused_fault hrefused
      exact .inr (.inr ⟨rfl, byte, List.mem_cons_self, hhigh⟩)
    | some type =>
      rw [hbyte] at h
      change typed gs type l = _ at h
      by_cases deep : type = .array ∧ gs.length = 8
      · simp only [typed, deep, and_self, if_true] at h
        cases h
      · rcases line_cases l with hnone | ⟨line, rest, hline, rfl⟩
        · rw [typed_wait deep hnone] at h
          cases h
        · rw [typed_line deep hline] at h
          refine (ofLine_fault (replyType_ne_nil hbyte) h).imp_right fun hover =>
            .inl ⟨hover.1, line, ?_, hover.2⟩
          exact ⟨[byte], 13 :: 10 :: rest, rfl⟩

end Items

/-! ## The stream -/

theorem modest_kept : resp.Kept fun gs l => (∀ g ∈ gs, 0 < g) ∧ Modest l where
  within holds hgs hl :=
    ⟨fun g hg => holds.1 g (hgs.subset hg), holds.2.within hl.isInfix⟩
  node := by
    intro gs l rest g more holds hitem
    refine ⟨?_, holds.2.within (Format.node_suffix hitem).isInfix⟩
    intro g' hg'
    rcases List.mem_cons.mp hg' with rfl | hg'
    · obtain ⟨w, -, rfl, hw⟩ := resp.node_spelled hitem
      have hnode := hw []
      rw [List.append_nil] at hnode
      obtain ⟨-, -, line, n, -, hn, positive, rfl, -, rfl⟩ := array_of_item hnode
      have part : line <:+: 42 :: (line ++ [13, 10]) ++ rest :=
        ⟨[42], [13, 10] ++ rest, by simp⟩
      obtain ⟨n', hn', lower, upper⟩ := number_modest (holds.2.within part)
      cases hn.symm.trans hn'
      unfold toInt
      rw [Int.bmod_def]
      split <;> omega
    · exact holds.1 g' hg'

theorem bytes_kept (P : UInt8 → Prop) : resp.Kept fun _ l => ∀ byte ∈ l, P byte where
  within holds _ hl := fun byte h => holds byte (hl.subset h)
  node := fun holds hitem => fun byte h => holds byte ((Format.node_suffix hitem).subset h)

section Faults

variable {l : Bytes} {fault : Fault} (h : (resp.drain [] l).2 = .fail (.fault fault))

include h

theorem drain_fault : fault = .overflow ∨ fault = .element ∨ fault = .ctype := by
  obtain ⟨gs, m, -, hitem⟩ := Format.drain_fails (bytes_kept fun _ => True) (by simp) h
  rcases item_fault hitem with ⟨rfl, -⟩ | ⟨rfl, -⟩ | ⟨rfl, -⟩ <;> simp

theorem drain_modest (modest : Modest l) : fault = .ctype := by
  obtain ⟨gs, m, ⟨positive, hm⟩, hitem⟩ :=
    Format.drain_fails modest_kept ⟨by simp [tags], modest⟩ h
  rcases item_fault hitem with ⟨-, hdoomed⟩ | ⟨-, line, part, hover⟩ | ⟨rfl, -⟩
  · cases gs with
    | nil => cases hdoomed
    | cons g gs =>
      have hg := positive g (by simp)
      have hnot : g ≤ 0 := by simpa [doomed] using hdoomed
      omega
  · obtain ⟨n, hn, -, upper⟩ := number_modest (hm.within part)
    have hbig := hover n hn
    unfold longLongMax at hbig
    omega
  · rfl

theorem drain_ascii (ascii : ∀ byte ∈ l, byte.toNat < 128) : fault ≠ .ctype := by
  rintro rfl
  obtain ⟨gs, m, hlow, hitem⟩ :=
    Format.drain_fails (bytes_kept fun byte => byte.toNat < 128) ascii h
  rcases item_fault hitem with ⟨hfault, -⟩ | ⟨hfault, -⟩ | ⟨-, byte, hbyte, hhigh⟩
  · cases hfault
  · cases hfault
  · have := hlow byte hbyte
    omega

end Faults

/-- The only faults are an overflow, an element without room and a negative `char` that stands where
a type byte should. There is none of the first two where there are never ten digits in a row, and
none of the last in ASCII. -/
theorem receiveAll_safe {bufs : List Bytes} (fits : Fits redisReaderCreate bufs) :
    (∀ fault, (redisReaderCreate.receiveAll bufs).2 = .error fault →
      fault = .overflow ∨ fault = .element ∨ fault = .ctype) ∧
    (Modest bufs.flatten → ∀ fault, (redisReaderCreate.receiveAll bufs).2 = .error fault →
      fault = .ctype) ∧
    ((∀ byte ∈ bufs.flatten, byte.toNat < 128) →
      (redisReaderCreate.receiveAll bufs).2 ≠ .error .ctype) := by
  have drains (fault : Fault) (h : (redisReaderCreate.receiveAll bufs).2 = .error fault) :
      (resp.drain [] bufs.flatten).2 = .fail (.fault fault) := by
    obtain ⟨-, hstop⟩ := receiveAll_drain fits
    cases hdrain : (resp.drain [] bufs.flatten).2 with
    | wait fs rest =>
      rw [hdrain] at hstop
      obtain ⟨r, hr, -⟩ := hstop
      cases hr.symm.trans h
    | fail e =>
      rw [hdrain] at hstop
      cases e with
      | protocol text =>
        have hok : (redisReaderCreate.receiveAll bufs).2 = .ok (failed text) := hstop
        cases hok.symm.trans h
      | fault fault' =>
        have herror : (redisReaderCreate.receiveAll bufs).2 = .error fault' := hstop
        cases herror.symm.trans h
        rfl
  exact ⟨fun fault h => drain_fault (drains fault h),
    fun modest fault h => drain_modest (drains fault h) modest,
    fun ascii h => drain_ascii (drains .ctype h) ascii rfl⟩

/-- An array in two reads, with the first byte of its element. -/
theorem receiveAll_safe_cut :
    ∃ r, (redisReaderCreate.receiveAll [[42, 49, 13], [10, 58, 55]]).2 = .ok r := by
  have fits : Fits redisReaderCreate [[42, 49, 13], [10, 58, 55]] := fits_of_length (by decide)
  obtain ⟨-, modest, ascii⟩ := receiveAll_safe fits
  cases h : (redisReaderCreate.receiveAll [[42, 49, 13], [10, 58, 55]]).2 with
  | ok r => exact ⟨r, rfl⟩
  | error fault =>
    obtain rfl := modest (fun ds hds _ => Nat.le_trans hds.length_le (by decide)) fault h
    exact absurd h (ascii (by simp))

end Hwnet.Hiredis
