import Mathlib.Algebra.GroupWithZero.Nat
import Mathlib.Data.List.Basic
import Mathlib.Data.Nat.Notation
import Mathlib.Logic.Function.Basic

set_option autoImplicit false

/-!
# Timers and the heap of a timer manager

`TimerMgr` keeps its timers in a binary heap of raw pointers, with back-pointers in the timers. A
state of the model holds the manager and the memory of all timers, those of other managers
included; dereferencing a null pointer or reading past the vector is `none`.
-/
namespace Hwnet

namespace Timer

abbrev Ptr := ℕ
abbrev Callback := ℕ
abbrev MgrPtr := ℕ
abbrev ThreadId := ℕ

def canceled : UInt32 := (1 : UInt32) <<< 1
def incallback : UInt32 := (1 : UInt32) <<< 2

end Timer

structure Timer where
  mCallback : Option Timer.Callback
  mExpiredTime : UInt64
  mTimeout : UInt64
  mOnce : Bool
  mMgr : Option Timer.MgrPtr
  mIndex : ℕ
  mStatus : UInt32
  tid : Option Timer.ThreadId
  selfPtr : Option Timer.Ptr
  deriving DecidableEq, Repr

def Timer.new (expiredTime timeout : UInt64) (once : Bool) (cb : Timer.Callback) : Timer where
  mCallback := some cb
  mExpiredTime := expiredTime
  mTimeout := timeout
  mOnce := once
  mMgr := none
  mIndex := 0
  mStatus := 0
  tid := none
  selfPtr := none

inductive Policy where
  | normal
  | compensate
  deriving DecidableEq, Repr

structure TimerMgr where
  self : Timer.MgrPtr
  policy : Policy
  elementsSize : ℕ
  elements : List (Option Timer.Ptr)
  timers : Timer.Ptr → Timer

namespace TimerMgr

open Timer

def new (self : MgrPtr) (policy : Policy) (timers : Ptr → Timer) : TimerMgr :=
  ⟨self, policy, 0, [], timers⟩

/-- `elements[getOffset(idx)]`; index 0 has no offset. -/
def elem (s : TimerMgr) : ℕ → Option Ptr
  | 0 => none
  | i + 1 => s.elements[i]?.join

def expiry (s : TimerMgr) (idx : ℕ) : Option UInt64 :=
  (s.elem idx).map fun t => (s.timers t).mExpiredTime

def setTimer (s : TimerMgr) (t : Ptr) (x : Timer) : TimerMgr :=
  { s with timers := Function.update s.timers t x }

def setIndex (s : TimerMgr) (t : Ptr) (idx : ℕ) : TimerMgr :=
  s.setTimer t { s.timers t with mIndex := idx }

def setElem (s : TimerMgr) (idx : ℕ) (e : Option Ptr) : TimerMgr :=
  { s with elements := s.elements.set (idx - 1) e }

def swap (s : TimerMgr) (idx1 idx2 : ℕ) : Option TimerMgr :=
  if idx1 = idx2 then some s
  else do
    let e1 ← s.elem idx1
    let e2 ← s.elem idx2
    let s := (s.setElem idx1 (some e2)).setElem idx2 (some e1)
    return (s.setIndex e2 idx1).setIndex e1 idx2

def earlier (s : TimerMgr) (a b : ℕ) : Option ℕ := do
  let x ← s.expiry a
  let y ← s.expiry b
  return if x < y then a else b

def minChild (s : TimerMgr) (idx : ℕ) : Option ℕ := do
  let min ← if 2 * idx ≤ s.elementsSize then s.earlier (2 * idx) idx else some idx
  if 2 * idx + 1 ≤ s.elementsSize then s.earlier (2 * idx + 1) min else some min

def downLoop : ℕ → TimerMgr → ℕ → Option TimerMgr
  | 0, _, _ => none
  | fuel + 1, s, idx => do
    let min ← s.minChild idx
    if min = idx then return s
    let s ← s.swap idx min
    downLoop fuel s min

/-- The index grows with each call, so `elementsSize` bounds the depth. -/
def down (s : TimerMgr) (idx : ℕ) : Option TimerMgr := downLoop (s.elementsSize + 1) s idx

def upLoop : ℕ → TimerMgr → ℕ → Option TimerMgr
  | 0, _, _ => none
  | fuel + 1, s, idx =>
    let p := idx / 2
    if 0 < p then do
      let min ← s.earlier idx p
      if min = p then return s
      let s ← s.swap idx p
      upLoop fuel s p
    else some s

def up (s : TimerMgr) (idx : ℕ) : Option TimerMgr := upLoop (idx + 1) s idx

def change (s : TimerMgr) (e : Ptr) : Option TimerMgr := do
  let idx := (s.timers e).mIndex
  let s ← s.down idx
  if idx = (s.timers e).mIndex then s.up idx else return s

/-- The pointer kept in the first timer, null where the manager is empty. -/
def top (s : TimerMgr) : Option Ptr :=
  if 0 < s.elementsSize then (s.elem 1).bind fun t => (s.timers t).selfPtr else none

def pop (s : TimerMgr) : Option TimerMgr :=
  if 0 < s.elementsSize then do
    let e ← s.elem 1
    let s ← s.swap 1 s.elementsSize
    let s := s.setTimer e { s.timers e with
      mIndex := 0
      mMgr := none
      selfPtr := none }
    let s := s.setElem s.elementsSize none
    down { s with elementsSize := s.elementsSize - 1 } 1
  else some s

def append (s : TimerMgr) (e : Ptr) : TimerMgr :=
  let s' := s.setTimer e { s.timers e with
    mMgr := some s.self
    mIndex := s.elementsSize + 1 }
  { s' with
    elements :=
      if s.elementsSize = s.elements.length then s.elements ++ [some e]
      else s.elements.set s.elementsSize (some e)
    elementsSize := s.elementsSize + 1 }

def insert (s : TimerMgr) (e : Ptr) : Option (TimerMgr × Bool) :=
  let t := s.timers e
  if t.mMgr ≠ none ∧ t.mMgr ≠ some s.self then some (s, false)
  else if 0 < t.mIndex then
    if s.elementsSize < t.mIndex ∨ s.elem t.mIndex ≠ some e then some (s, false)
    else do
      let s ← s.change e
      return (s, true)
  else do
    let s ← (s.append e).up (s.elementsSize + 1)
    return (s.setTimer e { s.timers e with selfPtr := some e }, true)

def unlink (s : TimerMgr) (e : Ptr) : Option TimerMgr := do
  let tail ← s.elem s.elementsSize
  if tail = e then return { s with elementsSize := s.elementsSize - 1 }
  let s ← s.swap (s.timers e).mIndex (s.timers tail).mIndex
  change { s with elementsSize := s.elementsSize - 1 } tail

/-- `mMgr` is not cleared. -/
def remove (s : TimerMgr) (e : Ptr) : Option (TimerMgr × Bool) :=
  let t := s.timers e
  if t.mMgr = some s.self then
    if t.mIndex = 0 ∨ s.elementsSize < t.mIndex ∨ s.elem t.mIndex ≠ some e then some (s, false)
    else do
      let s ← s.unlink e
      let s := s.setElem (s.elementsSize + 1) none
      return (s.setTimer e { s.timers e with
        mIndex := 0
        mCallback := none
        selfPtr := some e }, true)
  else some (s, false)

end TimerMgr

end Hwnet
