import Hwnet.HttpParserMethod

set_option autoImplicit false

/-!
# Header names

The tokens of a name are matched one by one. Only five names, in letters of either case, are
recognised.
-/
namespace Hwnet.Http.HttpParser

variable {k : HttpParser} {ch : UInt8} {h h' : HeaderState} {l : Bytes} {i : ℕ}

/-! ## The tokens of a name -/

def matchStep (p : HeaderState × ℕ) (c : UInt8) (string : Bytes) (h : HeaderState) :
    HeaderState × ℕ :=
  let index := (p.2 + 1) % 256
  if string.length < index ∨ (string ++ [NUL])[index]? ≠ some c then (.general, index)
  else if index = string.length - 1 then (h, index)
  else (p.1, index)

theorem matching_eq (c : UInt8) (string : Bytes) (h : HeaderState) :
    k.matching c string h =
      { k with
        headerState := (matchStep (k.headerState, k.index) c string h).1
        index := (matchStep (k.headerState, k.index) c string h).2 } := by
  unfold matching matchStep
  dsimp only
  split
  · rfl
  · split <;> rfl

def nameStep (p : HeaderState × ℕ) (c : UInt8) : HeaderState × ℕ :=
  match p.1 with
  | .general => p
  | .C => (if c = 0x6f then .CO else .general, (p.2 + 1) % 256)
  | .CO => (if c = 0x6e then .CON else .general, (p.2 + 1) % 256)
  | .CON =>
    (if c = 0x6e then .matchingConnection
      else if c = 0x74 then .matchingContentLength
      else .general, (p.2 + 1) % 256)
  | .matchingConnection => matchStep p c CONNECTION .connection
  | .matchingProxyConnection => matchStep p c PROXY_CONNECTION .connection
  | .matchingContentLength => matchStep p c CONTENT_LENGTH .contentLength
  | .matchingTransferEncoding => matchStep p c TRANSFER_ENCODING .transferEncoding
  | .matchingUpgrade => matchStep p c UPGRADE .upgrade
  | _ => (.general, p.2)

theorem token_space : token SP = 0 := by decide

theorem headerFieldToken_eq (hname : k.headerState.ofName) (htoken : token ch ≠ 0) :
    k.headerFieldToken ch =
      stays { k with
        headerState := (nameStep (k.headerState, k.index) (token ch)).1
        index := (nameStep (k.headerState, k.index) (token ch)).2 } := by
  have hspace : ch ≠ SP := fun h => htoken (h ▸ token_space)
  unfold headerFieldToken nameStep
  cases hk : k.headerState <;> rw [hk] at hname <;> simp only [matching_eq, hk] <;>
    first
    | rfl
    | exact absurd hname (by decide)
    | (rw [if_pos hspace])
    | (rw [← hk])

/-! ## What is recognised -/

/-- The tokens that are still to come, and the header state they lead to. -/
def wanted (p : HeaderState × ℕ) : List (Bytes × HeaderState) :=
  match p.1 with
  | .C | .CO | .CON =>
    [(CONNECTION.drop (p.2 + 1), .connection), (CONTENT_LENGTH.drop (p.2 + 1), .contentLength)]
  | .matchingConnection => [(CONNECTION.drop (p.2 + 1), .connection)]
  | .matchingProxyConnection => [(PROXY_CONNECTION.drop (p.2 + 1), .connection)]
  | .matchingContentLength => [(CONTENT_LENGTH.drop (p.2 + 1), .contentLength)]
  | .matchingTransferEncoding => [(TRANSFER_ENCODING.drop (p.2 + 1), .transferEncoding)]
  | .matchingUpgrade => [(UPGRADE.drop (p.2 + 1), .upgrade)]
  | .connection => [([], .connection)]
  | .contentLength => [([], .contentLength)]
  | .transferEncoding => [([], .transferEncoding)]
  | .upgrade => [([], .upgrade)]
  | _ => []

def Spot (p : HeaderState × ℕ) : Prop :=
  match p.1 with
  | .C => p.2 = 0
  | .CO => p.2 = 1
  | .CON => p.2 = 2
  | .matchingConnection => p.2 + 1 < CONNECTION.length
  | .matchingProxyConnection => p.2 + 1 < PROXY_CONNECTION.length
  | .matchingContentLength => p.2 + 1 < CONTENT_LENGTH.length
  | .matchingTransferEncoding => p.2 + 1 < TRANSFER_ENCODING.length
  | .matchingUpgrade => p.2 + 1 < UPGRADE.length
  | _ => True

def special : HeaderState → Bool
  | .connection | .contentLength | .transferEncoding | .upgrade => true
  | _ => false

theorem cons_eq_drop {s : Bytes} (c : UInt8) (l : Bytes) (hi : i < s.length) :
    c :: l = s.drop i ↔ s[i]? = some c ∧ l = s.drop (i + 1) := by
  rw [List.drop_eq_getElem_cons hi, List.cons.injEq, List.getElem?_eq_getElem hi,
    Option.some.injEq, eq_comm (a := c)]

/-- One more token of the string. The one before the last leads to `h`. -/
theorem matchStep_wanted {s : Bytes} {m : HeaderState} {c : UInt8} (short : s.length < 256)
    (hi : i + 1 < s.length) (hm : ∀ j, wanted (m, j) = [(s.drop (j + 1), h)])
    (hh : ∀ j, wanted (h, j) = [([], h)]) (l : Bytes) (h' : HeaderState) :
    (c :: l, h') ∈ wanted (m, i) ↔ (l, h') ∈ wanted (matchStep (m, i) c s h) := by
  have hmod : (i + 1) % 256 = i + 1 := Nat.mod_eq_of_lt (by omega)
  have hget : (s ++ [NUL])[i + 1]? = s[i + 1]? := List.getElem?_append_left hi
  rw [hm i, List.mem_singleton, Prod.mk.injEq, cons_eq_drop c l hi]
  simp only [matchStep, hmod, hget]
  by_cases hc : s[i + 1]? = some c
  · rw [if_neg (by simp only [hc, ne_eq, not_true, or_false]; omega)]
    simp only [hc, true_and]
    by_cases hlast : i + 1 = s.length - 1
    · rw [if_pos hlast, hh, List.mem_singleton, Prod.mk.injEq,
        List.drop_eq_nil_of_le (by omega : s.length ≤ i + 1 + 1)]
    · rw [if_neg hlast, hm (i + 1), List.mem_singleton, Prod.mk.injEq]
  · rw [if_pos (Or.inr hc)]
    simp only [hc, false_and, false_iff]
    exact List.not_mem_nil

theorem matchStep_spot {s : Bytes} {m : HeaderState} {c : UInt8} (short : s.length < 256)
    (hi : i + 1 < s.length) (hm : ∀ j, Spot (m, j) ↔ j + 1 < s.length) (hh : ∀ j, Spot (h, j)) :
    Spot (matchStep (m, i) c s h) := by
  have hmod : (i + 1) % 256 = i + 1 := Nat.mod_eq_of_lt (by omega)
  simp only [matchStep, hmod]
  split
  · exact trivial
  · split
    · exact hh _
    · exact (hm _).mpr (by omega)

theorem wanted_nil {p : HeaderState × ℕ} (spot : Spot p) :
    ([], h) ∈ wanted p ↔ p.1 = h ∧ special h = true := by
  obtain ⟨m, i⟩ := p
  have hdrop {s : Bytes} (hi : i + 1 < s.length) : [] ≠ s.drop (i + 1) := by
    intro hnil
    have hlen := congrArg List.length hnil
    rw [List.length_drop, List.length_nil] at hlen
    omega
  cases m <;> simp only [Spot] at spot <;> simp only [wanted] <;>
    first
    | (subst spot; cases h <;> decide)
    | (simp only [List.mem_singleton, Prod.mk.injEq, hdrop spot, false_and, false_iff]
       rintro ⟨rfl, hspecial⟩
       cases hspecial)
    | (cases h <;> simp [special])

theorem nameStep_spot {p : HeaderState × ℕ} (spot : Spot p) (c : UInt8) : Spot (nameStep p c) := by
  obtain ⟨m, i⟩ := p
  cases m
  case C =>
    obtain rfl : i = 0 := spot
    simp only [nameStep]
    split <;> trivial
  case CO =>
    obtain rfl : i = 1 := spot
    simp only [nameStep]
    split <;> trivial
  case CON =>
    obtain rfl : i = 2 := spot
    simp only [nameStep]
    split
    · show 3 + 1 < CONNECTION.length
      decide
    · split
      · show 3 + 1 < CONTENT_LENGTH.length
        decide
      · trivial
  case matchingConnection =>
    exact matchStep_spot (by decide) spot (fun _ => Iff.rfl) fun _ => trivial
  case matchingProxyConnection =>
    exact matchStep_spot (by decide) spot (fun _ => Iff.rfl) fun _ => trivial
  case matchingContentLength =>
    exact matchStep_spot (by decide) spot (fun _ => Iff.rfl) fun _ => trivial
  case matchingTransferEncoding =>
    exact matchStep_spot (by decide) spot (fun _ => Iff.rfl) fun _ => trivial
  case matchingUpgrade =>
    exact matchStep_spot (by decide) spot (fun _ => Iff.rfl) fun _ => trivial
  all_goals trivial

theorem wanted_cons {p : HeaderState × ℕ} (spot : Spot p) (c : UInt8) (l : Bytes)
    (h : HeaderState) : (c :: l, h) ∈ wanted p ↔ (l, h) ∈ wanted (nameStep p c) := by
  obtain ⟨m, i⟩ := p
  cases m
  case C =>
    obtain rfl : i = 0 := spot
    by_cases hc : c = 0x6f
    · simp [wanted, nameStep, hc, CONNECTION, CONTENT_LENGTH, ascii]
    · simp [wanted, nameStep, hc, CONNECTION, CONTENT_LENGTH, ascii]
  case CO =>
    obtain rfl : i = 1 := spot
    by_cases hc : c = 0x6e
    · simp [wanted, nameStep, hc, CONNECTION, CONTENT_LENGTH, ascii]
    · simp [wanted, nameStep, hc, CONNECTION, CONTENT_LENGTH, ascii]
  case CON =>
    obtain rfl : i = 2 := spot
    by_cases hn : c = 0x6e
    · simp [wanted, nameStep, hn, CONNECTION, CONTENT_LENGTH, ascii]
    · by_cases ht : c = 0x74
      · simp [wanted, nameStep, ht, CONNECTION, CONTENT_LENGTH, ascii]
      · simp [wanted, nameStep, hn, ht, CONNECTION, CONTENT_LENGTH, ascii]
  case matchingConnection =>
    exact matchStep_wanted (by decide) spot (fun _ => rfl) (fun _ => rfl) l h
  case matchingProxyConnection =>
    exact matchStep_wanted (by decide) spot (fun _ => rfl) (fun _ => rfl) l h
  case matchingContentLength =>
    exact matchStep_wanted (by decide) spot (fun _ => rfl) (fun _ => rfl) l h
  case matchingTransferEncoding =>
    exact matchStep_wanted (by decide) spot (fun _ => rfl) (fun _ => rfl) l h
  case matchingUpgrade =>
    exact matchStep_wanted (by decide) spot (fun _ => rfl) (fun _ => rfl) l h
  all_goals simp [wanted, nameStep]

/-- By induction on the tokens; `wanted` is carried along. -/
theorem nameStep_foldl {p : HeaderState × ℕ} (spot : Spot p) (l : Bytes) (h : HeaderState) :
    (l, h) ∈ wanted p ↔ (l.foldl nameStep p).1 = h ∧ special h = true := by
  induction l generalizing p with
  | nil => exact wanted_nil spot
  | cons c l ih => exact (wanted_cons spot c l h).trans (ih (nameStep_spot spot c))

/-! ## Whole names -/

def names : List (Bytes × HeaderState) :=
  [(CONNECTION, .connection), (PROXY_CONNECTION, .connection), (CONTENT_LENGTH, .contentLength),
    (TRANSFER_ENCODING, .transferEncoding), (UPGRADE, .upgrade)]

def kind (name : Bytes) : HeaderState := (names.lookup (name.map token)).getD .general

/-- Where a value is read with another one it is `general`. -/
def settle (h : HeaderState) : HeaderState := if special h then h else .general

theorem lookup_iff_mem {l : List (Bytes × HeaderState)} (nodup : (l.map Prod.fst).Nodup)
    (s : Bytes) (h : HeaderState) : l.lookup s = some h ↔ (s, h) ∈ l := by
  induction l with
  | nil => simp
  | cons p l ih =>
    obtain ⟨s', h'⟩ := p
    obtain ⟨hnot, hl⟩ := List.nodup_cons.mp nodup
    by_cases hs : s = s'
    · subst hs
      have hrest : (s, h) ∉ l := fun hmem => hnot (List.mem_map.mpr ⟨_, hmem, rfl⟩)
      rw [List.lookup_cons_self, List.mem_cons, Option.some.injEq, Prod.mk.injEq]
      exact ⟨fun heq => Or.inl ⟨rfl, heq.symm⟩, fun hmem =>
        hmem.elim (fun heq => heq.2.symm) fun hmem => absurd hmem hrest⟩
    · rw [List.lookup_cons, beq_eq_false_iff_ne.mpr hs, List.mem_cons, Prod.mk.injEq]
      simp only [hs, false_and, false_or]
      exact ih hl

theorem lookup_names (s : Bytes) (h : HeaderState) :
    names.lookup s = some h ↔ (s, h) ∈ names :=
  lookup_iff_mem (by decide) s h

theorem spot_first (c : UInt8) : Spot (firstHeaderState c, 0) := by
  unfold firstHeaderState
  split
  · rfl
  · split
    · show 0 + 1 < PROXY_CONNECTION.length
      decide
    · split
      · show 0 + 1 < TRANSFER_ENCODING.length
        decide
      · split
        · show 0 + 1 < UPGRADE.length
          decide
        · trivial

theorem wanted_first (c : UInt8) (l : Bytes) :
    (l, h) ∈ wanted (firstHeaderState c, 0) ↔ (c :: l, h) ∈ names := by
  unfold firstHeaderState
  split_ifs with h1 h2 h3 h4
  · subst h1
    simp [wanted, names, CONNECTION, PROXY_CONNECTION, CONTENT_LENGTH, TRANSFER_ENCODING, UPGRADE,
      ascii]
  · subst h2
    simp [wanted, names, CONNECTION, PROXY_CONNECTION, CONTENT_LENGTH, TRANSFER_ENCODING, UPGRADE,
      ascii]
  · subst h3
    simp [wanted, names, CONNECTION, PROXY_CONNECTION, CONTENT_LENGTH, TRANSFER_ENCODING, UPGRADE,
      ascii]
  · subst h4
    simp [wanted, names, CONNECTION, PROXY_CONNECTION, CONTENT_LENGTH, TRANSFER_ENCODING, UPGRADE,
      ascii]
  · simp [wanted, names, CONNECTION, PROXY_CONNECTION, CONTENT_LENGTH, TRANSFER_ENCODING, UPGRADE,
      ascii, h1, h2, h3, h4]

theorem settle_name (x : UInt8) (w : Bytes) :
    settle ((w.map token).foldl nameStep (firstHeaderState (token x), 0)).1 = kind (x :: w) := by
  have hiff (h : HeaderState) := (lookup_names (token x :: w.map token) h).trans
    ((wanted_first (token x) (w.map token)).symm.trans
      (nameStep_foldl (spot_first (token x)) (w.map token) h))
  unfold settle kind
  rw [List.map_cons]
  split
  · next hspecial => rw [(hiff _).mpr ⟨rfl, hspecial⟩, Option.getD_some]
  · next hnot =>
    rcases hlookup : names.lookup (token x :: w.map token) with _ | h
    · rfl
    · obtain ⟨rfl, hspecial⟩ := (hiff h).mp hlookup
      exact absurd hspecial hnot

/-! ## Values -/

/-- The string in letters of either case, and spaces behind it. -/
def Spaced : Bytes → Bytes → Bool
  | [], v => v.all (· = SP)
  | _ :: _, [] => false
  | c :: s, x :: v => lower x = c && Spaced s v

def valueStep (p : HeaderState × ℕ) (ch : UInt8) : HeaderState × ℕ :=
  match p.1 with
  | .matchingTransferEncodingChunked => matchStep p (lower ch) CHUNKED .transferEncodingChunked
  | .matchingConnectionKeepAlive => matchStep p (lower ch) KEEP_ALIVE .connectionKeepAlive
  | .matchingConnectionClose => matchStep p (lower ch) CLOSE .connectionClose
  | .transferEncodingChunked | .connectionKeepAlive | .connectionClose =>
    (if ch ≠ SP then .general else p.1, p.2)
  | _ => (.general, p.2)

def effective : HeaderState → Bool
  | .transferEncodingChunked | .connectionKeepAlive | .connectionClose => true
  | _ => false

def due (p : HeaderState × ℕ) (h : HeaderState) (l : Bytes) : Prop :=
  match p.1 with
  | .matchingTransferEncodingChunked =>
    h = .transferEncodingChunked ∧ Spaced (CHUNKED.drop (p.2 + 1)) l
  | .matchingConnectionKeepAlive =>
    h = .connectionKeepAlive ∧ Spaced (KEEP_ALIVE.drop (p.2 + 1)) l
  | .matchingConnectionClose => h = .connectionClose ∧ Spaced (CLOSE.drop (p.2 + 1)) l
  | .transferEncodingChunked | .connectionKeepAlive | .connectionClose => h = p.1 ∧ Spaced [] l
  | _ => False

def ValueSpot (p : HeaderState × ℕ) : Prop :=
  match p.1 with
  | .matchingTransferEncodingChunked => p.2 + 1 < CHUNKED.length
  | .matchingConnectionKeepAlive => p.2 + 1 < KEEP_ALIVE.length
  | .matchingConnectionClose => p.2 + 1 < CLOSE.length
  | _ => True

theorem spaced_drop {s : Bytes} (hi : i < s.length) (x : UInt8) (v : Bytes) :
    Spaced (s.drop i) (x :: v) = true ↔
      s[i]? = some (lower x) ∧ Spaced (s.drop (i + 1)) v = true := by
  rw [List.drop_eq_getElem_cons hi, Spaced, Bool.and_eq_true, decide_eq_true_eq,
    List.getElem?_eq_getElem hi, Option.some.injEq, eq_comm]

theorem matchStep_due {s : Bytes} {m : HeaderState} {x : UInt8} (short : s.length < 256)
    (hi : i + 1 < s.length) (hm : ∀ j l h', due (m, j) h' l ↔ h' = h ∧ Spaced (s.drop (j + 1)) l)
    (hh : ∀ j l h', due (h, j) h' l ↔ h' = h ∧ Spaced [] l) (l : Bytes) (h' : HeaderState) :
    due (m, i) h' (x :: l) ↔ due (matchStep (m, i) (lower x) s h) h' l := by
  have hmod : (i + 1) % 256 = i + 1 := Nat.mod_eq_of_lt (by omega)
  have hget : (s ++ [NUL])[i + 1]? = s[i + 1]? := List.getElem?_append_left hi
  rw [hm, spaced_drop hi]
  simp only [matchStep, hmod, hget]
  by_cases hc : s[i + 1]? = some (lower x)
  · rw [if_neg (by simp only [hc, ne_eq, not_true, or_false]; omega)]
    simp only [hc, true_and]
    by_cases hlast : i + 1 = s.length - 1
    · rw [if_pos hlast, hh, List.drop_eq_nil_of_le (by omega : s.length ≤ i + 1 + 1)]
    · rw [if_neg hlast, hm]
  · rw [if_pos (Or.inr hc)]
    simp only [hc, false_and, and_false, false_iff]
    exact id

theorem matchStep_valueSpot {s : Bytes} {m : HeaderState} {c : UInt8} (short : s.length < 256)
    (hi : i + 1 < s.length) (hm : ∀ j, ValueSpot (m, j) ↔ j + 1 < s.length)
    (hh : ∀ j, ValueSpot (h, j)) : ValueSpot (matchStep (m, i) c s h) := by
  have hmod : (i + 1) % 256 = i + 1 := Nat.mod_eq_of_lt (by omega)
  simp only [matchStep, hmod]
  split
  · exact trivial
  · split
    · exact hh _
    · exact (hm _).mpr (by omega)

theorem due_nil {p : HeaderState × ℕ} (spot : ValueSpot p) :
    due p h [] ↔ p.1 = h ∧ effective h = true := by
  obtain ⟨m, i⟩ := p
  have hdrop {s : Bytes} (hi : i + 1 < s.length) : Spaced (s.drop (i + 1)) [] = false := by
    rw [List.drop_eq_getElem_cons hi]
    rfl
  cases m <;> simp only [ValueSpot] at spot <;> simp only [due] <;>
    first
    | (simp only [hdrop spot, Bool.false_eq_true, and_false, false_iff]
       rintro ⟨rfl, heffective⟩
       cases heffective)
    | (cases h <;> simp [effective, Spaced])

theorem valueStep_spot {p : HeaderState × ℕ} (spot : ValueSpot p) (ch : UInt8) :
    ValueSpot (valueStep p ch) := by
  obtain ⟨m, i⟩ := p
  cases m
  case matchingTransferEncodingChunked =>
    exact matchStep_valueSpot (by decide) spot (fun _ => Iff.rfl) fun _ => trivial
  case matchingConnectionKeepAlive =>
    exact matchStep_valueSpot (by decide) spot (fun _ => Iff.rfl) fun _ => trivial
  case matchingConnectionClose =>
    exact matchStep_valueSpot (by decide) spot (fun _ => Iff.rfl) fun _ => trivial
  all_goals first
    | trivial
    | (simp only [valueStep]; split <;> trivial)

theorem due_cons {p : HeaderState × ℕ} (spot : ValueSpot p) (x : UInt8) (l : Bytes)
    (h : HeaderState) : due p h (x :: l) ↔ due (valueStep p x) h l := by
  obtain ⟨m, i⟩ := p
  cases m
  case matchingTransferEncodingChunked =>
    exact matchStep_due (by decide) spot (fun _ _ _ => Iff.rfl) (fun _ _ _ => Iff.rfl) l h
  case matchingConnectionKeepAlive =>
    exact matchStep_due (by decide) spot (fun _ _ _ => Iff.rfl) (fun _ _ _ => Iff.rfl) l h
  case matchingConnectionClose =>
    exact matchStep_due (by decide) spot (fun _ _ _ => Iff.rfl) (fun _ _ _ => Iff.rfl) l h
  all_goals first
    | exact Iff.rfl
    | (by_cases hx : x = SP <;> simp [due, valueStep, hx, Spaced])

theorem valueStep_foldl {p : HeaderState × ℕ} (spot : ValueSpot p) (l : Bytes)
    (h : HeaderState) : due p h l ↔ (l.foldl valueStep p).1 = h ∧ effective h = true := by
  induction l generalizing p with
  | nil => exact due_nil spot
  | cons x l ih => exact (due_cons spot x l h).trans (ih (valueStep_spot spot x))

end Hwnet.Http.HttpParser
