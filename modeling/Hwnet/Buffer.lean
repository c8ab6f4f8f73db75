import Hwnet.Machine
import Hwnet.Memory

set_option autoImplicit false

/-!
# Buffers

Buffers are views of byte blocks that they share. `size_t` is `UInt64`, so sums wrap. An operation
is `none` when it reads or writes outside a block, or uses a block or a buffer that is gone. An
allocation that fails throws before anything has changed, so it is left out.
-/
namespace Hwnet.Buffers

abbrev Mem := Memory.Mem UInt8

/-- `buff` is the byte block; it has no null here, since every overload of `New` sets it. -/
structure Buffer where
  buff : ℕ
  b : UInt64
  len : UInt64
  cap : UInt64
  deriving DecidableEq, Repr

/-- A `const char *`; what no buffer owns is known by its bytes. -/
inductive Pointer where
  | null
  | block (p : ℕ) (off : UInt64)
  | outside (bytes : List UInt8)
  deriving DecidableEq, Repr

def Pointer.load (m : Mem) (l : UInt64) : Pointer → Option (List (Option UInt8))
  | .null => none
  | .block p off => m.load p off.toNat l.toNat
  | .outside bytes => if l.toNat ≤ bytes.length then some ((bytes.take l.toNat).map some) else none

/-- The old source is what is copied, also where the two overlap. -/
def memcpy (m : Mem) (p : ℕ) (off : UInt64) (ptr : Pointer) (l : UInt64) : Option Mem := do
  let data ← ptr.load m l
  m.store p off.toNat data

def Buffer.BuffPtr (x : Buffer) : Pointer := .block x.buff x.b

/-- A character that has not been written yet is `none`. -/
def Buffer.ToString (x : Buffer) (m : Mem) : Option (List (Option UInt8)) :=
  m.load x.buff x.b.toNat x.len.toNat

def Buffer.write (x : Buffer) (m : Mem) (k : ℕ) (data : List UInt8) : Option Mem :=
  m.store x.buff (x.b.toNat + k) (data.map some)

/-- All buffers there have been; a destroyed one leaves its place empty. -/
structure Sys where
  mem : Mem
  buffers : List (Option Buffer)
  deriving DecidableEq, Repr

namespace Sys

def init : Sys := ⟨.empty, []⟩

def buffer (s : Sys) (i : ℕ) : Option Buffer := s.buffers[i]?.join

def put (s : Sys) (i : ℕ) (x : Buffer) : Sys := { s with buffers := s.buffers.set i (some x) }

/-- The count of `shared_ptr<bytes>` has come down; the block goes with the last owner. -/
def release (s : Sys) (p : ℕ) : Sys :=
  if s.buffers.any fun o => o.any (·.buff = p) then s else { s with mem := s.mem.free p }

def new (s : Sys) (cap_ l : UInt64) : Sys :=
  let cap_ := if cap_ < 16 then 16 else cap_
  let l := if cap_ < l then cap_ else l
  let (mem, buff) := s.mem.alloc cap_.toNat
  ⟨mem, s.buffers ++ [some ⟨buff, 0, l, cap_⟩]⟩

/-- `New(o, s, e)`; a null result leaves everything as it is. -/
def newSlice (st : Sys) (j : ℕ) (s e : UInt64) : Option Sys := do
  let o ← st.buffer j
  if o.len ≤ s then return st
  if e ≤ s then return st
  if o.len < e then return st
  return { st with buffers := st.buffers ++ [some ⟨o.buff, s, e - s, o.cap - s⟩] }

def expand (s : Sys) (i : ℕ) (x : Buffer) (newcap k : UInt64) : Option Sys := do
  let (mem, newbuff) := s.mem.alloc newcap.toNat
  let mem ← if 0 < k then memcpy mem newbuff 0 x.BuffPtr k else some mem
  return ({ s with mem }.put i { x with cap := newcap, buff := newbuff, b := 0 }).release x.buff

def copy (st : Sys) (i : ℕ) (s : UInt64) (ptr : Pointer) (l : UInt64) : Option Sys := do
  let x ← st.buffer i
  if ptr = .null ∨ l = 0 then return st
  if x.len < s then return st
  let newcap := s + l
  if newcap < x.len then return st
  let st ← if newcap ≠ x.cap then st.expand i x newcap s else some st
  let x ← st.buffer i
  let mem ← memcpy st.mem x.buff (x.b + s) ptr l
  return { st with mem }.put i { x with len := s + l }

def append (s : Sys) (i : ℕ) (ptr : Pointer) (l : UInt64) : Option Sys := do
  let x ← s.buffer i
  if ptr = .null ∨ l = 0 then return s
  let need := x.len + l
  if need < x.len then return s
  let s ← if x.cap < need then s.expand i x need x.len else some s
  let x ← s.buffer i
  let mem ← memcpy s.mem x.buff (x.len + x.b) ptr l
  return { s with mem }.put i { x with len := x.len + l }

def appendBuffer (s : Sys) (i j : ℕ) : Option Sys := do
  let o ← s.buffer j
  s.append i o.BuffPtr o.len

def newStr (s : Sys) (str : Pointer) (len : UInt64) : Option Sys :=
  if str = .null then some s else (s.new len 0).append s.buffers.length str len

def drop (s : Sys) (i : ℕ) : Option Sys := do
  let x ← s.buffer i
  return { s with buffers := s.buffers.set i none }.release x.buff

end Sys

inductive Op where
  | new (cap_ l : UInt64)
  | newStr (str : Pointer) (len : UInt64)
  | newSlice (j : ℕ) (s e : UInt64)
  | copy (i : ℕ) (s : UInt64) (ptr : Pointer) (l : UInt64)
  | append (i : ℕ) (ptr : Pointer) (l : UInt64)
  | appendBuffer (i j : ℕ)
  | drop (i : ℕ)
  deriving DecidableEq, Repr

def step (st : Sys) : Op → Option Sys
  | .new cap_ l => some (st.new cap_ l)
  | .newStr str len => st.newStr str len
  | .newSlice j s e => st.newSlice j s e
  | .copy i s ptr l => st.copy i s ptr l
  | .append i ptr l => st.append i ptr l
  | .appendBuffer i j => st.appendBuffer i j
  | .drop i => st.drop i

end Hwnet.Buffers
