import Hwnet.RedisCommand
import Mathlib.Data.List.Forall2
import Mathlib.Data.List.TakeWhile

set_option autoImplicit false

/-!
# Commands that are read

The words of a format, with its arguments in their places, are what the other end reads: no byte of
an argument begins another word, or another command.
-/
namespace Hwnet.Hiredis

/-! ## Numbers in a format -/

structure Spec where
  flags : Bytes
  width : Bytes
  precision : Option Bytes
  letters : Bytes
  type : ArgType

namespace Spec

def text (spec : Spec) : Bytes :=
  spec.flags ++ (spec.width ++ ((match spec.precision with
    | some digits => 46 :: digits
    | none => []) ++ spec.letters))

def Letters : ArgType → Bytes → Prop
  | .int, p => ∃ c, isIntfmt c ∧ (p = [c] ∨ p = [104, c] ∨ p = [104, 104, c])
  | .double, p => ∃ c, isDouble c ∧ p = [c]
  | .long, p => ∃ c, isIntfmt c ∧ p = [108, c]
  | .longLong, p => ∃ c, isIntfmt c ∧ p = [108, 108, c]

/-- One that `printf` has, and that fits `_format`. -/
structure Legal (spec : Spec) : Prop where
  flags : ∀ c ∈ spec.flags, isFlag c
  width : ∀ c ∈ spec.width, isdigit c
  start : spec.width.head? ≠ some 48
  precision : ∀ digits, spec.precision = some digits → ∀ c ∈ digits, isdigit c
  letters : Letters spec.type spec.letters
  short : spec.text.length < 13

theorem intfmt_cases {c : UInt8} (h : isIntfmt c) :
    c = 100 ∨ c = 105 ∨ c = 111 ∨ c = 117 ∨ c = 120 ∨ c = 88 := by
  simpa only [isIntfmt, Bool.or_eq_true, decide_eq_true_eq, or_assoc] using h

theorem double_cases {c : UInt8} (h : isDouble c) : c = 101 ∨ c = 69 ∨ c = 102 ∨ c = 70 ∨
    c = 103 ∨ c = 71 ∨ c = 97 ∨ c = 65 := by
  simpa only [isDouble, Bool.or_eq_true, decide_eq_true_eq, or_assoc] using h

theorem Letters.conversion {type : ArgType} {p : Bytes} (h : Letters type p) (rest : Bytes) :
    Hiredis.conversion (p ++ rest) = some (type, p.length) := by
  cases type with
  | int =>
    obtain ⟨c, hc, rfl | rfl | rfl⟩ := h
    all_goals rcases intfmt_cases hc with rfl | rfl | rfl | rfl | rfl | rfl <;> rfl
  | double =>
    obtain ⟨c, hc, rfl⟩ := h
    rcases double_cases hc with rfl | rfl | rfl | rfl | rfl | rfl | rfl | rfl <;> rfl
  | longLong =>
    obtain ⟨c, hc, rfl⟩ := h
    rcases intfmt_cases hc with rfl | rfl | rfl | rfl | rfl | rfl <;> rfl
  | long =>
    obtain ⟨c, hc, rfl⟩ := h
    rcases intfmt_cases hc with rfl | rfl | rfl | rfl | rfl | rfl <;> rfl

/-- The first letter is not taken for anything that may stand before it. -/
theorem Letters.head {type : ArgType} {p : Bytes} (h : Letters type p) : ∃ c l, p = c :: l ∧
    isFlag c = false ∧ isdigit c = false ∧ c ≠ 46 ∧ c ≠ 115 ∧ c ≠ 98 ∧ c ≠ 37 := by
  cases type with
  | int =>
    obtain ⟨c, hc, rfl | rfl | rfl⟩ := h
    · refine ⟨c, [], rfl, ?_⟩
      rcases intfmt_cases hc with rfl | rfl | rfl | rfl | rfl | rfl <;> decide
    · exact ⟨104, [c], rfl, by decide⟩
    · exact ⟨104, [104, c], rfl, by decide⟩
  | double =>
    obtain ⟨c, hc, rfl⟩ := h
    refine ⟨c, [], rfl, ?_⟩
    rcases double_cases hc with rfl | rfl | rfl | rfl | rfl | rfl | rfl | rfl <;> decide
  | longLong =>
    obtain ⟨c, hc, rfl⟩ := h
    exact ⟨108, [108, c], rfl, by decide⟩
  | long =>
    obtain ⟨c, hc, rfl⟩ := h
    exact ⟨108, [c], rfl, by decide⟩

theorem flag_cases {c : UInt8} (h : isFlag c) : c = 35 ∨ c = 48 ∨ c = 45 ∨ c = 43 ∨ c = 32 := by
  simpa only [isFlag, Bool.or_eq_true, decide_eq_true_eq, or_assoc] using h

theorem digit_cases {c : UInt8} (h : isdigit c) : 48 ≤ c ∧ c < 58 := by
  simpa only [isdigit, Bool.and_eq_true, decide_eq_true_eq] using h

theorem isFlag_of_isdigit {c : UInt8} (h : isdigit c) (first : c ≠ 48) : isFlag c = false := by
  obtain ⟨above, -⟩ := digit_cases h
  by_contra hflag
  rcases flag_cases (Bool.not_eq_false _ ▸ hflag) with rfl | rfl | rfl | rfl | rfl
  · exact absurd above (by decide)
  · exact first rfl
  · exact absurd above (by decide)
  · exact absurd above (by decide)
  · exact absurd above (by decide)

theorem dropWhile_stops {p : UInt8 → Bool} {l : Bytes} (all : ∀ c ∈ l, p c) {d : UInt8}
    (stops : p d = false) (rest : Bytes) : (l ++ d :: rest).dropWhile p = d :: rest := by
  rw [List.dropWhile_append_of_pos all]
  exact List.dropWhile_cons_of_neg (by simp [stops])

theorem Legal.precision_text {spec : Spec} (legal : spec.Legal) (rest : Bytes) :
    Hiredis.precision (spec.text ++ rest) = spec.letters ++ rest := by
  obtain ⟨c, l, hletters, flag, digit, point, -⟩ := legal.letters.head
  -- What follows the width starts with a point or a letter.
  have behind : ∃ d l', (match spec.precision with
      | some digits => 46 :: digits
      | none => []) ++ (spec.letters ++ rest) = d :: l' ∧ isFlag d = false ∧
        isdigit d = false := by
    cases spec.precision with
    | none => exact ⟨c, l ++ rest, by rw [hletters]; rfl, flag, digit⟩
    | some digits => exact ⟨46, digits ++ (spec.letters ++ rest), rfl, rfl, rfl⟩
  obtain ⟨d, l', hbehind, hflag, hdigit⟩ := behind
  have hflags : (spec.text ++ rest).dropWhile isFlag = spec.width ++ d :: l' := by
    rw [text, List.append_assoc, List.append_assoc, List.append_assoc, hbehind]
    cases hwidth : spec.width with
    | nil => exact dropWhile_stops legal.flags hflag l'
    | cons w ws =>
      have hw : isdigit w := legal.width w (by simp [hwidth])
      have first : w ≠ 48 := fun h => legal.start (by rw [hwidth, h]; rfl)
      exact dropWhile_stops legal.flags (isFlag_of_isdigit hw first) (ws ++ d :: l')
  rw [Hiredis.precision, hflags, dropWhile_stops legal.width hdigit, ← hbehind]
  cases hprecision : spec.precision with
  | none =>
    rw [List.nil_append, hletters, List.cons_append]
    split
    case h_1 heq => exact absurd (List.cons.inj heq).1 point
    case h_2 => rfl
  | some digits =>
    have hdigits := dropWhile_stops (legal.precision digits hprecision) digit (l ++ rest)
    rwa [← List.cons_append, ← hletters] at hdigits

theorem Legal.head {spec : Spec} (legal : spec.Legal) :
    ∃ c l, spec.text = c :: l ∧ c ≠ 115 ∧ c ≠ 98 ∧ c ≠ 37 := by
  unfold text
  cases hflags : spec.flags with
  | cons f fs =>
    refine ⟨f, _, rfl, ?_⟩
    rcases flag_cases (legal.flags f (by simp [hflags])) with rfl | rfl | rfl | rfl | rfl <;> decide
  | nil =>
    cases hwidth : spec.width with
    | cons w ws =>
      have hw := digit_cases (legal.width w (by simp [hwidth]))
      refine ⟨w, _, rfl, ?_, ?_, ?_⟩
      · rintro rfl
        exact absurd hw.2 (by decide)
      · rintro rfl
        exact absurd hw.2 (by decide)
      · rintro rfl
        exact absurd hw.1 (by decide)
    | nil =>
      cases spec.precision with
      | some digits => exact ⟨46, _, rfl, by decide⟩
      | none =>
        obtain ⟨c, l, hletters, -, -, -, hc⟩ := legal.letters.head
        exact ⟨c, l, hletters, hc⟩

end Spec

/-! ## Pieces -/

inductive Piece where
  | char (c : UInt8)
  | space
  | str (arg : Bytes)
  | mem (arg : Bytes) (size : ℕ)
  | percent
  | number (spec : Spec) (value : ℤ)

namespace Piece

def isSpace : Piece → Bool
  | .space => true
  | _ => false

def format : Piece → Bytes
  | .char c => [c]
  | .space => [32]
  | .str _ => [37, 115]
  | .mem _ _ => [37, 98]
  | .percent => [37, 37]
  | .number spec _ => 37 :: spec.text

def args : Piece → List Arg
  | .char _ | .space | .percent => []
  | .str arg => [.pointer arg]
  | .mem arg size => [.pointer arg, .size size]
  | .number spec value => [.number spec.type value]

def text (print : Bytes → ℤ → Bytes) : Piece → Bytes
  | .char c => [c]
  | .space => []
  | .str arg => arg.takeWhile (· ≠ 0)
  | .mem arg size => arg.take size
  | .percent => [37]
  | .number spec value => print (37 :: spec.text) value

/-- A string ends, and memory is as large as it is said to be. -/
def Legal : Piece → Prop
  | .char c => c ≠ 0 ∧ c ≠ 32 ∧ c ≠ 37
  | .space | .percent => True
  | .str arg => 0 ∈ arg
  | .mem arg size => size ≤ arg.length
  | .number spec _ => spec.Legal

end Piece

section

variable (print : Bytes → ℤ → Bytes)

def wordText (word : List Piece) : Bytes := word.flatMap (Piece.text print)

/-- Nothing between two spaces is no word. -/
def wordTexts (words : List (List Piece)) : List Bytes :=
  (words.filter fun word => !word.isEmpty).map (wordText print)

/-- The arguments of the command that a format stands for: the words between its spaces. -/
def argv (pieces : List Piece) : List Bytes := wordTexts print (pieces.splitOnP Piece.isSpace)

theorem wordTexts_cons {word : List Piece} (h : word ≠ []) (words : List (List Piece)) :
    wordTexts print (word :: words) = wordText print word :: wordTexts print words := by
  cases word with
  | nil => exact absurd rfl h
  | cons p word => rfl

end

theorem length_le_flatMap (argv : List Bytes) : argv.length ≤ (argv.flatMap writeBulk).length := by
  induction argv with
  | nil => exact Nat.zero_le 0
  | cons arg argv ih =>
    have filled : 0 < (writeBulk arg).length := Nat.succ_pos _
    rw [List.flatMap_cons, List.length_append, List.length_cons]
    omega

section

variable (print : Bytes → ℤ → Bytes)

namespace Command

theorem scan_skip (l rest : Bytes) (s : Command) :
    scan print l.length (l ++ rest) s = scan print 0 rest s := by
  induction l with
  | nil => rfl
  | cons c l ih => exact ih

theorem scan_substitute {s s' : Command} {l rest : Bytes} (hl : l ≠ [])
    (h : s.substitute print (l ++ rest) = .ok (s', l.length)) :
    scan print 0 (37 :: (l ++ rest)) s = scan print 0 rest { s' with touched := true } := by
  have hc : l ++ rest ≠ [] := fun h => hl (List.append_eq_nil_iff.mp h).1
  rw [scan, if_neg (by rintro (h | h); exacts [h rfl, hc h]), h]
  exact scan_skip print l rest { s' with touched := true }

theorem printf_number {spec : Spec} (legal : spec.Legal) (value : ℤ) (rest : Bytes) (s : Command)
    {ap : List Arg} (hap : s.ap = .number spec.type value :: ap) :
    s.printf print (spec.text ++ rest) = .ok
      ({ s with curarg := s.curarg ++ print (37 :: spec.text) value, ap := ap },
        spec.text.length) := by
  have hlength : 1 + ((spec.text ++ rest).length - (spec.letters ++ rest).length) +
      spec.letters.length = spec.text.length + 1 := by
    simp only [List.length_append, Spec.text]
    omega
  have short := legal.short
  rw [printf, legal.precision_text, legal.letters.conversion, hap]
  simp only [if_pos, hlength, Nat.add_sub_cancel]
  rw [if_pos (by omega), if_neg (by simp), List.take_left]

/-- A piece that is no space is put behind the current argument. -/
theorem scan_piece {p : Piece} (legal : p.Legal) (word : p.isSpace = false) (rest : Bytes)
    (s : Command) {ap : List Arg} (hap : s.ap = p.args ++ ap) :
    scan print 0 (p.format ++ rest) s = scan print 0 rest
      { s with curarg := s.curarg ++ p.text print, touched := true, ap := ap } := by
  cases p with
  | char c =>
    obtain ⟨-, space, percent⟩ := legal
    have hargs : s.ap = ap := hap
    rw [Piece.format, List.singleton_append, scan, if_pos (.inl percent), if_neg space, ← hargs]
    rfl
  | space => cases word
  | str arg =>
    have ends : 0 ∈ arg := legal
    have part : arg.takeWhile (· ≠ 0) <+: arg := List.takeWhile_prefix _
    have hput : s.substitute print (115 :: rest) = .ok
        ({ s with curarg := s.curarg ++ arg.takeWhile (· ≠ 0), ap := ap }, 1) := by
      rw [substitute, if_pos List.head?_cons, hap, List.prefix_iff_eq_take.mp part]
      simp only [Piece.args, List.cons_append, List.nil_append, strlen, if_pos ends]
      change (do
        let s ← sdscatlen _ arg (arg.takeWhile (· ≠ 0)).length
        return (s, 1)) = _
      rw [sdscatlen, if_pos part.length_le]
      rfl
    exact scan_substitute print (l := [115]) (by simp) hput
  | mem arg size =>
    have fits : size ≤ arg.length := legal
    have hput : s.substitute print (98 :: rest) = .ok
        ({ s with curarg := s.curarg ++ arg.take size, ap := ap }, 1) := by
      rw [substitute, if_neg (by simp), if_pos List.head?_cons, hap]
      simp only [Piece.args, List.cons_append, List.nil_append, sdscatlen, if_pos fits]
      rfl
    exact scan_substitute print (l := [98]) (by simp) hput
  | percent =>
    have hargs : s.ap = ap := hap
    have hput : s.substitute print (37 :: rest) = .ok
        ({ s with curarg := s.curarg ++ [37], ap := ap }, 1) := by
      rw [← hargs]
      rfl
    exact scan_substitute print (l := [37]) (by simp) hput
  | number spec value =>
    have hspec : spec.Legal := legal
    obtain ⟨c, l, htext, hs, hb, hpercent⟩ := hspec.head
    have hput := printf_number print hspec value rest s hap
    have hsub : s.substitute print (spec.text ++ rest) = s.printf print (spec.text ++ rest) := by
      rw [substitute, htext]
      simp [hs, hb, hpercent]
    exact scan_substitute print (by simp [htext]) (hsub.trans hput)

/-! ## Words -/

def built (done : List Bytes) (word : List Piece) (ap : List Arg) : Command where
  curarg := wordText print word
  touched := !word.isEmpty
  curargv := done
  totlen := (done.flatMap writeBulk).length
  ap := ap

theorem start_built (ap : List Arg) : start ap = built print [] [] ap := rfl

theorem pushArg_built (done : List Bytes) (word : List Piece) (ap : List Arg)
    (small : ((done ++ [wordText print word]).flatMap writeBulk).length ≤ 2147483647) :
    (built print done word ap).pushArg =
      .ok (built print (done ++ [wordText print word]) [] ap) := by
  rw [List.flatMap_append, List.length_append, List.flatMap_singleton] at small
  have few := length_le_flatMap done
  have filled : 0 < (writeBulk (wordText print word)).length := Nat.succ_pos _
  have htotlen : toInt ((done.flatMap writeBulk).length + bulklen (wordText print word).length) =
      ((done ++ [wordText print word]).flatMap writeBulk).length := by
    rw [← writeBulk_length, List.flatMap_append, List.length_append, List.flatMap_singleton]
    exact toInt_small small
  have hlength : done.length < 2147483647 := by omega
  rw [pushArg, built, if_pos hlength, htotlen]
  rfl

theorem built_touched (done : List Bytes) (p : Piece) (word : List Piece) (ap : List Arg) :
    (built print done (p :: word).reverse ap).touched = true := by
  simp [built]

/-- Pieces lead from one such state to another, and no word is lost. -/
theorem scan_pieces {pieces : List Piece} (legal : ∀ p ∈ pieces, p.Legal) (more : List Piece)
    (rest : Bytes) (ap : List Arg) : ∀ (done : List Bytes) (word : List Piece),
      ((done ++ wordTexts print ((pieces ++ more).splitOnPPrepend Piece.isSpace word)).flatMap
        writeBulk).length ≤ 2147483647 →
      ∃ (done' : List Bytes) (word' : List Piece),
        scan print 0 (pieces.flatMap Piece.format ++ rest)
          (built print done word.reverse (pieces.flatMap Piece.args ++ ap)) =
          scan print 0 rest (built print done' word'.reverse ap) ∧
        done ++ wordTexts print ((pieces ++ more).splitOnPPrepend Piece.isSpace word) =
          done' ++ wordTexts print (more.splitOnPPrepend Piece.isSpace word') := by
  induction pieces with
  | nil => exact fun done word _ => ⟨done, word, rfl, rfl⟩
  | cons p pieces ih =>
    intro done word small
    have others : ∀ p ∈ pieces, p.Legal := fun q hq => legal q (List.mem_cons_of_mem p hq)
    rw [List.cons_append] at small ⊢
    cases hspace : p.isSpace with
    | true =>
      have hp : p = .space := by
        cases p <;> first | rfl | cases hspace
      subst hp
      rw [List.splitOnPPrepend_cons_pos rfl] at small ⊢
      cases word with
      | nil => exact ih others done [] small
      | cons p word =>
        have filled : (p :: word).reverse ≠ [] := by simp
        rw [wordTexts_cons print filled, List.append_cons] at small ⊢
        have hpush := pushArg_built print done (p :: word).reverse
          (pieces.flatMap Piece.args ++ ap) (by
            rw [List.flatMap_append, List.length_append] at small
            omega)
        obtain ⟨done', word', hscan, hwords⟩ := ih others _ [] small
        refine ⟨done', word', Eq.trans ?_ hscan, hwords⟩
        change scan print 0 (32 :: (pieces.flatMap Piece.format ++ rest)) (built print done
          (p :: word).reverse (pieces.flatMap Piece.args ++ ap)) = _
        rw [scan, if_pos (.inl (by decide)), if_pos rfl, if_pos (built_touched print ..), hpush]
        rfl
    | false =>
      rw [List.splitOnPPrepend_cons_neg hspace] at small ⊢
      obtain ⟨done', word', hscan, hwords⟩ := ih others done (p :: word) small
      refine ⟨done', word', Eq.trans ?_ hscan, hwords⟩
      have hap : (built print done word.reverse ((p :: pieces).flatMap Piece.args ++ ap)).ap =
          p.args ++ (pieces.flatMap Piece.args ++ ap) := List.append_assoc ..
      rw [List.flatMap_cons, List.append_assoc,
        scan_piece print (legal p List.mem_cons_self) hspace _ _ hap]
      congr 1
      simp [built, wordText]

theorem finish_built {done : List Bytes} {word : List Piece}
    (small : ((done ++ wordTexts print ([].splitOnPPrepend Piece.isSpace word)).flatMap
      writeBulk).length ≤ 2147483647) : finish (built print done word.reverse []) =
        .ok (built print (done ++ wordTexts print ([].splitOnPPrepend Piece.isSpace word)) []
          []) := by
  cases word with
  | nil =>
    rw [List.splitOnPPrepend_nil]
    change Except.ok _ = _
    simp [wordTexts]
  | cons p word =>
    have filled : (p :: word).reverse ≠ [] := by simp
    rw [List.splitOnPPrepend_nil, wordTexts_cons print filled] at small ⊢
    rw [finish, if_pos (built_touched print ..)]
    exact pushArg_built print done _ [] small

/-- The last pieces of a format, and the end of the last word. -/
theorem finish_pieces {pieces : List Piece} (legal : ∀ p ∈ pieces, p.Legal) (done : List Bytes)
    (word : List Piece)
    (small : ((done ++ wordTexts print (pieces.splitOnPPrepend Piece.isSpace word)).flatMap
      writeBulk).length ≤ 2147483647) :
    (scan print 0 (pieces.flatMap Piece.format)
      (built print done word.reverse (pieces.flatMap Piece.args)) >>= finish) =
      .ok (built print
        (done ++ wordTexts print (pieces.splitOnPPrepend Piece.isSpace word)) [] []) := by
  have hpieces := scan_pieces print legal [] [] [] done word
  rw [List.append_nil, List.append_nil, List.append_nil] at hpieces
  obtain ⟨done', word', hscan, hwords⟩ := hpieces small
  rw [hscan, hwords]
  rw [hwords] at small
  exact finish_built print small

/-- The text of the command is as long as it was counted to be. -/
theorem write_built {done : List Bytes} (small : (writeCommand done).length ≤ 2147483647) :
    (built print done [] []).write = .ok (writeCommand done) := by
  have hlength := writeCommand_length done
  have htotlen : toInt ((done.flatMap writeBulk).length + (1 + countDigits done.length + 2 : ℕ)) =
      (writeCommand done).length := by
    rw [hlength, Nat.add_comm _ (done.flatMap writeBulk).length]
    exact toInt_small (by omega)
  rw [write, built, htotlen, if_neg (lt_irrefl _)]
  exact if_pos rfl

theorem ok_write (s : Command) :
    ((.ok s : Except Unformatted Command) >>= Command.write) = s.write := rfl

end Command

theorem redisvFormatCommand_eq (format : Bytes) (ap : List Arg) :
    redisvFormatCommand print format ap =
      (Command.scan print 0 format (.start ap) >>= Command.finish) >>= Command.write := by
  rw [bind_assoc]
  rfl

theorem formatted {pieces : List Piece} (legal : ∀ p ∈ pieces, p.Legal)
    (small : (writeCommand (argv print pieces)).length ≤ 2147483647) :
    redisvFormatCommand print (pieces.flatMap Piece.format) (pieces.flatMap Piece.args) =
      .ok (writeCommand (argv print pieces)) := by
  have hlength := writeCommand_length (argv print pieces)
  have hbulks : ((argv print pieces).flatMap writeBulk).length ≤ 2147483647 := by omega
  have hscan := Command.finish_pieces print legal [] []
  rw [List.reverse_nil, List.nil_append, List.splitOnPPrepend_nil_right, ← argv,
    ← Command.start_built] at hscan
  have hwrite := Command.write_built print small
  rw [redisvFormatCommand_eq, hscan hbulks, Command.ok_write]
  exact hwrite

end

def answer (argv : List Bytes) : Answer := .multi (argv.map .bulk)

theorem allLegal_bulk {argv : List Bytes} {around : ℕ}
    (small : (argv.flatMap writeBulk).length ≤ 2147483647) :
    AllLegal around (argv.map .bulk) := by
  induction argv with
  | nil => trivial
  | cons arg argv ih =>
    rw [List.flatMap_cons, List.length_append] at small
    have hbulk := writeBulk_length arg
    unfold bulklen at hbulk
    refine ⟨?_, ih (by omega)⟩
    change (arg.length : ℤ) + 2 ≤ longLongMax
    unfold longLongMax
    omega

theorem answer_legal {argv : List Bytes} (small : (writeCommand argv).length ≤ 2147483647) :
    (answer argv).Legal 0 := by
  have hlength := writeCommand_length argv
  have few := length_le_flatMap argv
  exact ⟨by decide, by rw [List.length_map]; omega, allLegal_bulk (by omega)⟩

theorem answer_reply (argv : List Bytes) : (answer argv).reply =
    .array argv.length (argv.map fun arg => some (.string arg)) := by
  rw [answer, Answer.reply, elements_eq, List.length_map, List.map_map, List.map_map]
  rfl

theorem texts_answers (argvs : List (List Bytes)) :
    texts (argvs.map answer) = (argvs.map writeCommand).flatten := by
  induction argvs with
  | nil => rfl
  | cons argv argvs ih =>
    rw [List.map_cons, texts, ih, answer, ← writeCommand_eq]
    rfl

theorem allLegal_map {argvs : List (List Bytes)}
    (small : ∀ argv ∈ argvs, (writeCommand argv).length ≤ 2147483647) :
    AllLegal 0 (argvs.map answer) := by
  induction argvs with
  | nil => trivial
  | cons argv argvs ih =>
    exact ⟨answer_legal (small argv List.mem_cons_self),
      ih fun other h => small other (List.mem_cons_of_mem argv h)⟩

def setPieces : List Piece :=
  [.char 83, .char 69, .char 84, .space, .char 107, .number ⟨[], [], none, [100], .int⟩ 7, .space,
    .mem [97, 13, 10] 3]

def getPieces : List Piece := [.char 71, .char 69, .char 84, .space, .space, .str [107, 55, 0]]

/-- Where nothing is behind the flags, the width and the precision. -/
theorem mem_of_precision {t : Bytes} (cut : precision t = []) {c : UInt8} (hc : c ∈ t) :
    isFlag c ∨ isdigit c ∨ c = 46 := by
  have hrest : ∀ d ∈ (t.dropWhile isFlag).dropWhile isdigit, isdigit d ∨ d = 46 := by
    intro d hd
    rw [precision] at cut
    split at cut
    case h_1 p hp =>
      rw [hp, List.mem_cons] at hd
      exact hd.symm.imp_left (List.dropWhile_eq_nil_iff.mp cut d)
    case h_2 => rw [cut] at hd; cases hd
  rw [← List.takeWhile_append_dropWhile (p := isFlag) (l := t), List.mem_append,
    ← List.takeWhile_append_dropWhile (p := isdigit) (l := t.dropWhile isFlag),
    List.mem_append] at hc
  rcases hc with hflag | hdigit | hc
  · exact .inl (List.mem_takeWhile_imp hflag)
  · exact .inr (.inl (List.mem_takeWhile_imp hdigit))
  · exact .inr (hrest c hc)

theorem plain_of_precision {t : Bytes} (cut : precision t = []) {c : UInt8} (hc : c ∈ t) :
    c ≠ 0 ∧ c ≠ 37 ∧ c ≠ 115 ∧ c ≠ 98 := by
  rcases mem_of_precision cut hc with h | h | rfl
  · rcases Spec.flag_cases h with rfl | rfl | rfl | rfl | rfl <;> decide
  · obtain ⟨above, below⟩ := Spec.digit_cases h
    refine ⟨?_, ?_, ?_, ?_⟩ <;> rintro rfl <;> revert above below <;> decide
  · decide

def chars (t : Bytes) : List Piece := t.map fun c => if c = 32 then .space else .char c

theorem chars_format (t : Bytes) : (chars t).flatMap Piece.format = t := by
  induction t with
  | nil => rfl
  | cons c t ih =>
    rw [chars, List.map_cons, List.flatMap_cons, ← chars, ih]
    split
    case isTrue h => rw [h]; rfl
    case isFalse => rfl

theorem chars_args (t : Bytes) : (chars t).flatMap Piece.args = [] := by
  induction t with
  | nil => rfl
  | cons c t ih =>
    rw [chars, List.map_cons, List.flatMap_cons, ← chars, ih]
    split <;> rfl

theorem chars_legal {t : Bytes} (plain : ∀ c ∈ t, c ≠ 0 ∧ c ≠ 37) : ∀ p ∈ chars t, p.Legal := by
  intro p hp
  obtain ⟨c, hc, rfl⟩ := List.mem_map.mp hp
  split
  case isTrue => trivial
  case isFalse h => exact ⟨(plain c hc).1, h, (plain c hc).2⟩

section

variable (print : Bytes → ℤ → Bytes)

theorem Command.substitute_cut {c : UInt8} {t : Bytes} (cut : precision (c :: t) = [])
    (s : Command) {value : ℤ} {ap : List Arg} (hap : s.ap = .number .int value :: ap) :
    s.substitute print (c :: t) =
      if t.length < 11 then .error .outside else .ok ({ s with ap := ap }, 1) := by
  obtain ⟨-, h37, h115, h98⟩ := plain_of_precision cut List.mem_cons_self
  have hprintf : s.substitute print (c :: t) = s.printf print (c :: t) := by
    rw [substitute]
    simp [h37, h115, h98]
  rw [hprintf, printf, cut, hap]
  simp only [conversion, if_true, List.length_nil, List.length_cons]
  rcases Nat.lt_or_ge t.length 11 with short | long
  · rw [if_pos (by omega), if_pos (by omega), if_pos short]
  · rw [if_neg (by omega), if_neg (by omega)]

end

end Hwnet.Hiredis
