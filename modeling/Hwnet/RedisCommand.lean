import Hwnet.RedisReaderWritten

set_option autoImplicit false

/-!
# Commands

hiredis builds a command from a format and its arguments: words apart by spaces, with strings,
memory and numbers in their places. The words become the bulk strings of one array.
-/
namespace Hwnet.Hiredis

open Numerals (decimal decimal_cases)
open Nested

/-- `-2`, or what C leaves undefined: an argument of another type, a byte behind a string or a
block of memory, an `int` that overflows, an assertion that fails. -/
inductive Unformatted where
  | format
  | argument
  | outside
  | overflow
  | assertion
  deriving DecidableEq, Repr

inductive ArgType where
  | int
  | double
  | longLong
  | long
  deriving DecidableEq, Repr

/-- What `va_arg` takes: a pointer with the memory behind it, a size, or a number, where a `double`
is its bits. -/
inductive Arg where
  | pointer (memory : Bytes)
  | size (size : ℕ)
  | number (type : ArgType) (value : ℤ)
  deriving DecidableEq, Repr

structure Command where
  curarg : Bytes
  touched : Bool
  curargv : List Bytes
  totlen : ℤ
  ap : List Arg

/-! ## Lengths -/

def countDigits (v : ℕ) : ℕ :=
  if v < 10 then 1
  else if v < 100 then 2
  else if v < 1000 then 3
  else if v < 10000 then 4
  else countDigits (v / 10000) + 4

def bulklen (len : ℕ) : ℕ := 1 + countDigits len + 2 + len + 2

theorem decimal_length {n : ℕ} (h : 10 ≤ n) :
    (decimal n).length = (decimal (n / 10)).length + 1 := by
  rcases decimal_cases n with ⟨hn, -⟩ | ⟨-, hdecimal⟩
  · omega
  · rw [hdecimal, List.length_append, List.length_singleton]

theorem countDigits_eq (v : ℕ) : countDigits v = (decimal v).length := by
  have digit : ∀ n, n < 10 → (decimal n).length = 1 := fun n hn => by
    rcases decimal_cases n with ⟨-, hdecimal⟩ | ⟨h, -⟩
    · rw [hdecimal]; rfl
    · omega
  induction v using Nat.strongRecOn with
  | ind v ih =>
    rw [countDigits]
    split
    case isTrue h => exact (digit v h).symm
    rw [decimal_length (by omega)]
    split
    case isTrue h => rw [digit _ (by omega)]
    rw [decimal_length (by omega)]
    split
    case isTrue h => rw [digit _ (by omega)]
    rw [decimal_length (by omega)]
    split
    case isTrue h => rw [digit _ (by omega)]
    rw [decimal_length (by omega), ih _ (by omega)]
    simp only [Nat.div_div_eq_div_mul]

/-! ## Conversions of numbers -/

def isFlag (c : UInt8) : Bool := c = 35 || c = 48 || c = 45 || c = 43 || c = 32

def isdigit (c : UInt8) : Bool := 48 ≤ c && c < 58

def isIntfmt (c : UInt8) : Bool :=
  c = 100 || c = 105 || c = 111 || c = 117 || c = 120 || c = 88

def isDouble (c : UInt8) : Bool :=
  c = 101 || c = 69 || c = 102 || c = 70 || c = 103 || c = 71 || c = 97 || c = 65

def precision (c : Bytes) : Bytes :=
  match (c.dropWhile isFlag).dropWhile isdigit with
  | 46 :: p => p.dropWhile isdigit
  | p => p

def sized (type : ArgType) (size : ℕ) : Bytes → Option (ArgType × ℕ)
  | [] => none
  | c :: _ => if isIntfmt c then some (type, size + 1) else none

/-- The type of the argument and the length from `_p` on. Without a size, `strchr` finds the byte
that ends the format as well. -/
def conversion : Bytes → Option (ArgType × ℕ)
  | [] => some (.int, 1)
  | c :: p =>
    if isIntfmt c then some (.int, 1)
    else if isDouble c then some (.double, 1)
    else if c = 104 then
      match p with
      | 104 :: p => sized .int 2 p
      | p => sized .int 1 p
    else if c = 108 then
      match p with
      | 108 :: p => sized .longLong 2 p
      | p => sized .long 1 p
    else none

/-! ## The command -/

namespace Command

def start (ap : List Arg) : Command where
  curarg := []
  touched := false
  curargv := []
  totlen := 0
  ap := ap

def pushArg (s : Command) : Except Unformatted Command :=
  if s.curargv.length < 2147483647 then
    .ok { s with
      curarg := []
      touched := false
      curargv := s.curargv ++ [s.curarg]
      totlen := toInt (s.totlen + bulklen s.curarg.length) }
  else .error .overflow

def strlen (memory : Bytes) : Except Unformatted ℕ :=
  if 0 ∈ memory then .ok (memory.takeWhile (· ≠ 0)).length else .error .outside

/-- `sdscatlen` from memory that may be too short. -/
def sdscatlen (s : Command) (memory : Bytes) (size : ℕ) : Except Unformatted Command :=
  if size ≤ memory.length then .ok { s with curarg := s.curarg ++ memory.take size }
  else .error .outside

section

variable (print : Bytes → ℤ → Bytes)

/-- A conversion for `printf`, whose text is `print`. One that does not fit `_format` takes its
argument, and from its third byte on it is text. -/
def printf (s : Command) (c : Bytes) : Except Unformatted (Command × ℕ) :=
  match conversion (precision c), s.ap with
  | none, _ => .error .format
  | some (type, n), .number type' value :: ap =>
    if type' = type then
      let l := 1 + (c.length - (precision c).length) + n
      if l < 14 then
        if c.length < l - 1 then .error .outside
        else .ok ({ s with curarg := s.curarg ++ print (37 :: c.take (l - 1)) value, ap := ap },
          l - 1)
      else .ok ({ s with ap := ap }, 1)
    else .error .argument
  | some _, _ => .error .argument

/-- What stands for a conversion, and how many bytes behind the `%` it takes. -/
def substitute (s : Command) (c : Bytes) : Except Unformatted (Command × ℕ) :=
  if c.head? = some 115 then
    match s.ap with
    | .pointer arg :: ap => do
      let size ← strlen arg
      let s ← sdscatlen { s with ap := ap } arg size
      return (s, 1)
    | _ => .error .argument
  else if c.head? = some 98 then
    match s.ap with
    | .pointer arg :: .size size :: ap => do
      let s ← sdscatlen { s with ap := ap } arg size
      return (s, 1)
    | _ => .error .argument
  else if c.head? = some 37 then .ok ({ s with curarg := s.curarg ++ [37] }, 1)
  else s.printf print c

/-- The loop over the format. Behind a conversion, so many bytes are skipped. -/
def scan : ℕ → Bytes → Command → Except Unformatted Command
  | _, [], s => .ok s
  | skip + 1, _ :: c, s => scan skip c s
  | 0, x :: c, s =>
    if x ≠ 37 ∨ c = [] then
      if x = 32 then
        if s.touched then do
          let s ← s.pushArg
          scan 0 c s
        else scan 0 c s
      else scan 0 c { s with curarg := s.curarg ++ [x], touched := true }
    else do
      let (s, skip) ← s.substitute print c
      scan skip c { s with touched := true }

end

def finish (s : Command) : Except Unformatted Command := if s.touched then s.pushArg else .ok s

end Command

def writeBulk (arg : Bytes) : Bytes :=
  36 :: (decimal arg.length ++ 13 :: 10 :: (arg ++ [13, 10]))

def writeCommand (argv : List Bytes) : Bytes :=
  42 :: (decimal argv.length ++ 13 :: 10 :: argv.flatMap writeBulk)

/-- The text is written to `totlen + 1` bytes of memory, and its length asserted. -/
def Command.write (s : Command) : Except Unformatted Bytes :=
  let totlen := toInt (s.totlen + (1 + countDigits s.curargv.length + 2 : ℕ))
  let cmd := writeCommand s.curargv
  if totlen < cmd.length then .error .outside
  else if totlen = cmd.length then .ok cmd
  else .error .assertion

def redisvFormatCommand (print : Bytes → ℤ → Bytes) (format : Bytes) (ap : List Arg) :
    Except Unformatted Bytes := do
  let s ← Command.scan print 0 format (.start ap)
  let s ← s.finish
  s.write

/-! ## The text of a command -/

theorem writeBulk_length (arg : Bytes) : (writeBulk arg).length = bulklen arg.length := by
  simp only [writeBulk, bulklen, countDigits_eq, List.length_cons, List.length_append,
    List.length_nil]
  omega

theorem writeCommand_length (argv : List Bytes) : (writeCommand argv).length =
    1 + countDigits argv.length + 2 + (argv.flatMap writeBulk).length := by
  simp only [writeCommand, countDigits_eq, List.length_cons, List.length_append]
  omega

theorem texts_bulk (argv : List Bytes) : texts (argv.map .bulk) = argv.flatMap writeBulk := by
  induction argv with
  | nil => rfl
  | cons arg argv ih => rw [List.map_cons, texts, ih]; rfl

/-- A command is the array of its arguments. -/
theorem writeCommand_eq (argv : List Bytes) :
    writeCommand argv = (Answer.multi (argv.map .bulk)).text := by
  rw [Answer.text, texts_bulk, List.length_map]
  rfl

end Hwnet.Hiredis
