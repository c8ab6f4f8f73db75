import Mathlib.Data.List.Basic
import Mathlib.Data.Int.Notation
import Mathlib.Data.Nat.Notation

set_option autoImplicit false

/-!
# The reply reader

hiredis reads replies from a buffer of bytes. The replies that are being read are tasks on a stack
of nine; an array waits there for its elements. What C leaves undefined is a fault.
-/
namespace Hwnet.Hiredis

abbrev Bytes := List UInt8

inductive ReplyType where
  | string
  | array
  | integer
  | nil
  | status
  | error
  deriving DecidableEq, Repr

/-- A `redisReply` with the fields that its type uses. `element` may hold null pointers. -/
inductive Reply where
  | string (str : Bytes)
  | array (elements : ℕ) (element : List (Option Reply))
  | integer (integer : ℤ)
  | nil
  | status (str : Bytes)
  | error (str : Bytes)

/-- An overflow of `long long`, an element outside of its array, an assertion that fails, a task
outside of the stack, a byte behind the buffer, a negative `char` given to `isprint`. -/
inductive Fault where
  | overflow
  | element
  | assertion
  | stack
  | outside
  | ctype
  deriving DecidableEq, Repr

/-- A `redisReadTask`; its parent is the task below it and its object stands in `reply`. No type is
read yet where it is `none`. -/
structure Task where
  type : Option ReplyType
  elements : ℤ
  idx : ℤ
  deriving DecidableEq, Repr

/-- A `redisReader` with the default functions. The task in front is `rstack[ridx]`. -/
structure Reader where
  err : ℕ
  errstr : String
  buf : Bytes
  pos : ℕ
  rstack : List Task
  reply : Option Reply

def errProtocol : ℕ := 4

def longLongMax : ℤ := 9223372036854775807

def toInt (n : ℤ) : ℤ := n.bmod 4294967296

def toSize (n : ℤ) : ℕ := (n % 18446744073709551616).toNat

/-- The length of the string is compared with `int`s and as one. -/
def sdsrange (s : Bytes) (start end_ : ℤ) : Bytes :=
  let len : ℤ := s.length
  let start := if start < 0 then max (toInt (len + start)) 0 else start
  let end_ := if end_ < 0 then max (toInt (len + end_)) 0 else end_
  if len = 0 then s
  else if end_ < start ∨ toInt len ≤ start then []
  else
    let end_ := if toInt len ≤ end_ then toInt (len - 1) else end_
    (s.drop start.toNat).take (end_ - start + 1).toNat

def redisReaderCreate : Reader where
  err := 0
  errstr := ""
  buf := []
  pos := 0
  rstack := []
  reply := none

namespace Reader

def unread (r : Reader) : Bytes := r.buf.drop r.pos

/-! ## Errors -/

def setError (r : Reader) (type : ℕ) (str : String) : Reader :=
  { r with
    reply := none
    buf := []
    pos := 0
    rstack := []
    err := type
    errstr := String.ofList (str.toList.take 127) }

end Reader

def hexDigit (n : ℕ) : Char := if n < 10 then Char.ofNat (48 + n) else Char.ofNat (87 + n)

/-- A byte in quotes, with a backslash or in hexadecimal where it is not printed as it is. From 0x80
up it is a negative `char`, which `isprint` is not defined for. -/
def chrtos (byte : UInt8) : Except Fault String :=
  let quote := Char.ofNat 34
  let backslash := Char.ofNat 92
  String.ofList <$> match byte.toNat with
    | 92 | 34 => .ok [quote, backslash, Char.ofNat byte.toNat, quote]
    | 10 => .ok [quote, backslash, 'n', quote]
    | 13 => .ok [quote, backslash, 'r', quote]
    | 9 => .ok [quote, backslash, 't', quote]
    | 7 => .ok [quote, backslash, 'a', quote]
    | 8 => .ok [quote, backslash, 'b', quote]
    | n =>
      if 128 ≤ n then .error .ctype
      else if 32 ≤ n ∧ n ≤ 126 then .ok [quote, Char.ofNat n, quote]
      else .ok [quote, backslash, 'x', hexDigit (n / 16), hexDigit (n % 16), quote]

def protocolByte (byte : UInt8) : Except Fault String := do
  let cbuf ← chrtos byte
  return "Protocol error, got " ++ cbuf ++ " as reply type byte"

def depthText : String := "No support for nested multi bulk replies with depth > 7"

/-! ## Lines -/

def seekFrom (s : Bytes) : ℕ → ℕ → Option ℕ
  | 0, _ => none
  | count + 1, pos =>
    if s[pos]? = some 13 ∧ s[pos + 1]? = some 10 then some pos else seekFrom s count (pos + 1)

/-- `_len` is an `int`, and a length of zero wraps to -1. -/
def seekNewline (s : Bytes) (len : ℕ) : Option ℕ := seekFrom s (toInt (len - 1)).toNat 0

def readDigits (mult : ℤ) : ℤ → Bytes → Except Fault ℤ
  | _, [] => .error .outside
  | v, c :: s =>
    if c = 13 then .ok (mult * v)
    else if 48 ≤ c ∧ c < 58 then
      if v * 10 + (c.toNat - 48) ≤ longLongMax then readDigits mult (v * 10 + (c.toNat - 48)) s
      else .error .overflow
    else .ok (-1)

def readLongLong : Bytes → Except Fault ℤ
  | [] => .error .outside
  | c :: s =>
    if c = 45 then readDigits (-1) 0 s
    else if c = 43 then readDigits 1 0 s
    else readDigits 1 0 (c :: s)

/-! ## Objects -/

def replyType (byte : UInt8) : Option ReplyType :=
  if byte = 45 then some .error
  else if byte = 43 then some .status
  else if byte = 58 then some .integer
  else if byte = 36 then some .string
  else if byte = 42 then some .array
  else none

def createStringObject (task : Task) (str : Bytes) : Except Fault Reply :=
  match task.type with
  | some .error => .ok (.error str)
  | some .status => .ok (.status str)
  | some .string => .ok (.string str)
  | _ => .error .assertion

def createArrayObject (elements : ℤ) : Reply :=
  .array (toSize elements) (List.replicate elements.toNat none)

/-- Where the object of the task in front stands: the indices from the root on. -/
def path : List Task → List ℕ
  | [] => []
  | [_] => []
  | cur :: prv :: rest => path (prv :: rest) ++ [cur.idx.toNat]

def store : List ℕ → Reply → Option Reply → Except Fault (Option Reply)
  | [], obj, _ => .ok (some obj)
  | idx :: path, obj, some (.array elements element) =>
    match element[idx]? with
    | some inner => do
      let inner ← store path obj inner
      return some (.array elements (element.set idx inner))
    | none => .error .element
  | _ :: _, _, _ => .error .assertion

def moveToNextTask : List Task → Except Fault (List Task)
  | [] => .ok []
  | [_] => .ok []
  | cur :: prv :: rest =>
    if prv.type = some .array then
      if cur.idx = prv.elements - 1 then moveToNextTask (prv :: rest)
      else if cur.idx < prv.elements then
        .ok ({ type := none, elements := -1, idx := cur.idx + 1 } :: prv :: rest)
      else .error .assertion
    else .error .assertion

namespace Reader

def attach (r : Reader) (obj : Reply) : Except Fault Reader := do
  let reply ← store (path r.rstack) obj r.reply
  return { r with reply := reply }

def complete (r : Reader) (obj : Reply) : Except Fault (Reader × Bool) := do
  let r ← r.attach obj
  let rstack ← moveToNextTask r.rstack
  return ({ r with rstack := rstack }, true)

/-! ## Items -/

def readLine (r : Reader) : Option (Bytes × ℕ × Reader) :=
  match seekNewline r.unread (r.buf.length - r.pos) with
  | some len => some (r.unread, len, { r with pos := r.pos + (len + 2) })
  | none => none

def processLineItem (r : Reader) (cur : Task) : Except Fault (Reader × Bool) :=
  match r.readLine with
  | some (p, len, r) => do
    let obj ← if cur.type = some .integer then Reply.integer <$> readLongLong p
      else createStringObject cur (p.take len)
    r.complete obj
  | none => .ok (r, false)

def processBulkItem (r : Reader) (cur : Task) : Except Fault (Reader × Bool) :=
  match seekNewline r.unread (r.buf.length - r.pos) with
  | some s => do
    let len ← readLongLong r.unread
    if len < 0 then complete { r with pos := r.pos + (s + 2) } .nil
    else if longLongMax < len + 2 then .error .overflow
    else
      let bytelen := s + 2 + (len.toNat + 2)
      if r.pos + bytelen ≤ r.buf.length then do
        let obj ← createStringObject cur ((r.unread.drop (s + 2)).take len.toNat)
        complete { r with pos := r.pos + bytelen } obj
      else .ok (r, false)
  | none => .ok (r, false)

def processMultiBulkItem (r : Reader) (cur : Task) (rest : List Task) :
    Except Fault (Reader × Bool) :=
  if rest.length = 8 then .ok (r.setError errProtocol depthText, false)
  else match r.readLine with
    | some (p, _, r) => do
      let elements ← readLongLong p
      if elements = -1 then r.complete .nil
      else if 0 < elements then do
        let r ← r.attach (createArrayObject (toInt elements))
        if rest.length < 8 then
          return ({ r with
            rstack := { type := none, elements := -1, idx := 0 } ::
              { cur with elements := toInt elements } :: rest }, true)
        else .error .stack
      else r.complete (createArrayObject (toInt elements))
    | none => .ok (r, false)

def processTyped (r : Reader) (cur : Task) (rest : List Task) : Except Fault (Reader × Bool) :=
  match cur.type with
  | some .error | some .status | some .integer => r.processLineItem cur
  | some .string => r.processBulkItem cur
  | some .array => r.processMultiBulkItem cur rest
  | _ => .error .assertion

def processItem (r : Reader) : Except Fault (Reader × Bool) :=
  match r.rstack with
  | [] => .error .stack
  | cur :: rest =>
    if cur.type = none then
      match r.unread with
      | [] => .ok (r, false)
      | byte :: _ =>
        match replyType byte with
        | some type =>
          let cur := { cur with type := some type }
          processTyped { r with pos := r.pos + 1, rstack := cur :: rest } cur rest
        | none => do
          let sbuf ← protocolByte byte
          return ({ r with pos := r.pos + 1 }.setError errProtocol sbuf, false)
    else r.processTyped cur rest

/-- The loop of `redisReaderGetReply`; every item takes a byte off the buffer. -/
def processItems : ℕ → Reader → Except Fault Reader
  | 0, r => .ok r
  | fuel + 1, r =>
    if r.rstack.isEmpty then .ok r
    else do
      let (r, ok) ← r.processItem
      if ok then processItems fuel r else return r

/-! ## Replies -/

/-- The early return of an erroneous reader comes first. -/
def redisReaderFeed (r : Reader) (buf : Bytes) : Reader × Bool :=
  if r.err ≠ 0 then (r, false) else ({ r with buf := r.buf ++ buf }, true)

def setFirst (r : Reader) : Reader :=
  if r.rstack.isEmpty then { r with rstack := [{ type := none, elements := -1, idx := -1 }] } else r

/-- At least 1024 bytes have been read; the call converts `pos` to an `int`. -/
def discard (r : Reader) : Reader :=
  if 1024 ≤ r.pos then { r with buf := sdsrange r.buf (toInt r.pos) (-1), pos := 0 } else r

def redisReaderGetReply (r : Reader) : Except Fault (Reader × Option Reply × Bool) :=
  if r.err ≠ 0 then .ok (r, none, false)
  else if r.buf.length = 0 then .ok (r, none, true)
  else do
    let r ← processItems (r.unread.length + 2) r.setFirst
    if r.err ≠ 0 then return (r, none, false)
    else
      let r := r.discard
      if r.rstack.isEmpty then return ({ r with reply := none }, r.reply, true)
      else return (r, none, true)

def replies : ℕ → Reader → List Reply × Except Fault Reader
  | 0, r => ([], .ok r)
  | fuel + 1, r =>
    match r.redisReaderGetReply with
    | .ok (r, some reply, true) => (reply :: (replies fuel r).1, (replies fuel r).2)
    | .ok (r, _, _) => ([], .ok r)
    | .error fault => ([], .error fault)

def receive (r : Reader) (buf : Bytes) : List Reply × Except Fault Reader :=
  match r.redisReaderFeed buf with
  | (r, true) => replies (r.unread.length + 2) r
  | (r, false) => ([], .ok r)

def receiveAll (r : Reader) : List Bytes → List Reply × Except Fault Reader
  | [] => ([], .ok r)
  | buf :: bufs =>
    match r.receive buf with
    | (rs, .ok r) => (rs ++ (receiveAll r bufs).1, (receiveAll r bufs).2)
    | (rs, .error fault) => (rs, .error fault)

end Reader
end Hwnet.Hiredis
