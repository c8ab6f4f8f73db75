import Hwnet.BufferContents

set_option autoImplicit false

/-!
# Buffers that are queued to be sent

A send context holds on to its Buffer, and points into the block that the Buffer had when it was
queued. A Buffer that gets another block gives the old one up.
-/
namespace Hwnet.Buffers

/-! ## The block an operation frees -/

namespace Sys

def shared (s : Sys) (i p : ℕ) : Bool := (s.buffers.set i none).any fun o => o.any (·.buff = p)

def sole (s : Sys) (i : ℕ) : Option ℕ :=
  (s.buffer i).bind fun x => if s.shared i x.buff then none else some x.buff

def copyExpands (s : Sys) (i : ℕ) (pos : UInt64) (ptr : Pointer) (l : UInt64) : Bool :=
  (s.buffer i).any fun x =>
    !decide (ptr = .null ∨ l = 0) && !decide (x.len < pos) && !decide (pos + l < x.len) &&
      decide (pos + l ≠ x.cap)

def appendExpands (s : Sys) (i : ℕ) (ptr : Pointer) (l : UInt64) : Bool :=
  (s.buffer i).any fun x =>
    !decide (ptr = .null ∨ l = 0) && !decide (x.len + l < x.len) && decide (x.cap < x.len + l)

def freed (s : Sys) : Op → Option ℕ
  | .copy i pos ptr l => if s.copyExpands i pos ptr l then s.sole i else none
  | .append i ptr l => if s.appendExpands i ptr l then s.sole i else none
  | .appendBuffer i j =>
    (s.buffer j).bind fun o => if s.appendExpands i o.BuffPtr o.len then s.sole i else none
  | .drop i => s.sole i
  | .new _ _ | .newStr _ _ | .newSlice _ _ _ => none

end Sys

variable {s s' : Sys} {i : ℕ} {x : Buffer}

theorem buffer_erased (s : Sys) (i k : ℕ) :
    ({ s with buffers := s.buffers.set i none } : Sys).buffer k =
      if k = i then none else s.buffer k := by
  simp only [Sys.buffer, List.getElem?_set]
  by_cases hk : i = k
  · subst hk
    by_cases hlt : i < s.buffers.length
    · simp [hlt]
    · simp [hlt]
  · simp [hk, Ne.symm hk]

theorem shared_iff {p : ℕ} : s.shared i p = true ↔ s.Shared i p := by
  unfold Sys.shared
  rw [holds_buff_iff (s := { s with buffers := s.buffers.set i none })]
  constructor
  · rintro ⟨k, y, hk, hy⟩
    rw [buffer_erased] at hk
    split at hk
    · cases hk
    · rename_i hki
      exact ⟨k, y, hki, hk, hy⟩
  · rintro ⟨k, y, hki, hk, hy⟩
    exact ⟨k, y, by rw [buffer_erased, if_neg hki, hk], hy⟩

theorem sole_eq (at_ : s.buffer i = some x) :
    s.sole i = if s.shared i x.buff then none else some x.buff := by
  rw [Sys.sole, at_, Option.bind_some]

structure Frees (m m' : Mem) (gone : Option ℕ) : Prop where
  keeps : ∀ p n, gone ≠ some p → m.size p = some n → m'.size p = some n
  frees : ∀ p, gone = some p → m'.size p = none

theorem Frees.refl (m : Mem) : Frees m m none :=
  ⟨fun _ _ _ h => h, fun _ h => by cases h⟩

theorem Frees.resized {m m' m'' : Mem} {gone : Option ℕ} (h : Frees m m' gone)
    (same : ∀ p, m''.size p = m'.size p) : Frees m m'' gone :=
  ⟨fun p n hp hn => (same p).trans (h.keeps p n hp hn), fun p hp => (same p).trans (h.frees p hp)⟩

theorem size_congr {m m' : Mem} {p : ℕ} (h : m'.cells p = m.cells p) : m'.size p = m.size p := by
  rw [Memory.Mem.size, h, Memory.Mem.size]

theorem cells_ne_none {m : Mem} {p n : ℕ} (h : m.size p = some n) : m.cells p ≠ none := by
  intro hnone
  rw [Memory.Mem.size, hnone] at h
  cases h

theorem Replaced.frees {p : ℕ} {k : UInt64} (h : Replaced s s' i x p k)
    (at_ : s.buffer i = some x) : Frees s.mem s'.mem (s.sole i) := by
  rw [sole_eq at_]
  cases hshared : s.shared i x.buff with
  | true =>
    refine ⟨fun q n _ hn => ?_, fun q hq => by cases hq⟩
    by_cases hq : q = x.buff
    · rw [← hn, hq]
      exact size_congr (h.kept (shared_iff.mp hshared))
    · exact (size_congr (h.others q hq (cells_ne_none hn))).trans hn
  | false =>
    have hsole : ¬ s.Shared i x.buff := fun hs => by cases hshared.symm.trans (shared_iff.mpr hs)
    refine ⟨fun q n hq hn => ?_, fun q hq => ?_⟩
    · have hne : q ≠ x.buff := fun heq => hq (by rw [heq]; rfl)
      exact (size_congr (h.others q hne (cells_ne_none hn))).trans hn
    · cases hq
      rw [Memory.Mem.size, h.freed hsole]
      rfl

theorem overwrite_frees {pos l : UInt64} {ptr : Pointer} {test : Bool} (sound : Sound s)
    (at_ : s.buffer i = some x) (old : pos ≤ x.len) (longer : ¬ pos + l < x.len)
    (h : s.overwrite i x pos l ptr test = some s') :
    Frees s.mem s'.mem (if test then s.sole i else none) := by
  rw [overwrite_eq] at h
  obtain ⟨grown, hgrown, hrest⟩ := Option.bind_eq_some_iff.mp h
  obtain ⟨x', -, hcopied⟩ := Option.bind_eq_some_iff.mp hrest
  obtain ⟨mem, hmem, hput⟩ := Option.bind_eq_some_iff.mp hcopied
  cases hput
  have hfrees : Frees s.mem grown.mem (if test then s.sole i else none) := by
    cases test with
    | false =>
      cases hgrown
      exact Frees.refl _
    | true =>
      obtain ⟨t, p, ht, -, -, hreplaced⟩ := expand_some sound at_ old (UInt64.not_lt.mp longer)
      cases hgrown.symm.trans ht
      exact hreplaced.frees at_
  exact hfrees.resized (memcpy_size hmem)

theorem copy_frees {pos l : UInt64} {ptr : Pointer} (sound : Sound s)
    (h : s.copy i pos ptr l = some s') :
    Frees s.mem s'.mem (if s.copyExpands i pos ptr l then s.sole i else none) := by
  obtain ⟨x, hx, -⟩ := Option.bind_eq_some_iff.mp h
  by_cases hnothing : (ptr = .null ∨ l = 0) ∨ x.len < pos ∨ pos + l < x.len
  · have hsame : s.copy i pos ptr l = some s := by
      rcases hnothing with hn | hn | hn
      · simp [Sys.copy, hx, hn]
      · simp [Sys.copy, hx, hn]
      · simp [Sys.copy, hx, hn]
    have htest : s.copyExpands i pos ptr l = false := by
      rcases hnothing with hn | hn | hn <;> simp [Sys.copyExpands, hx, hn]
    cases hsame.symm.trans h
    rw [htest]
    exact Frees.refl _
  · obtain ⟨hsome, hpos, hwrap⟩ : ¬ (ptr = .null ∨ l = 0) ∧ ¬ x.len < pos ∧ ¬ pos + l < x.len :=
      ⟨fun hn => hnothing (.inl hn), fun hn => hnothing (.inr (.inl hn)),
        fun hn => hnothing (.inr (.inr hn))⟩
    rw [copy_eq hx hsome hpos hwrap] at h
    have htest : s.copyExpands i pos ptr l = decide (pos + l ≠ x.cap) := by
      simp only [Sys.copyExpands, hx, Option.any_some, decide_eq_false hsome,
        decide_eq_false hpos, decide_eq_false hwrap, Bool.not_false, Bool.true_and]
    rw [htest]
    exact overwrite_frees sound hx (UInt64.not_lt.mp hpos) hwrap h

theorem append_frees {l : UInt64} {ptr : Pointer} (sound : Sound s)
    (h : s.append i ptr l = some s') :
    Frees s.mem s'.mem (if s.appendExpands i ptr l then s.sole i else none) := by
  obtain ⟨x, hx, -⟩ := Option.bind_eq_some_iff.mp h
  by_cases hnothing : (ptr = .null ∨ l = 0) ∨ x.len + l < x.len
  · have hsame : s.append i ptr l = some s := by
      rcases hnothing with hn | hn <;> simp [Sys.append, hx, hn]
    have htest : s.appendExpands i ptr l = false := by
      rcases hnothing with hn | hn <;> simp [Sys.appendExpands, hx, hn]
    cases hsame.symm.trans h
    rw [htest]
    exact Frees.refl _
  · rw [not_or] at hnothing
    obtain ⟨hsome, hwrap⟩ := hnothing
    rw [append_eq sound hx hsome hwrap] at h
    have htest : s.appendExpands i ptr l = decide (x.cap < x.len + l) := by
      simp only [Sys.appendExpands, hx, Option.any_some, decide_eq_false hsome,
        decide_eq_false hwrap, Bool.not_false, Bool.true_and]
    rw [htest]
    exact overwrite_frees sound hx (UInt64.le_refl x.len) hwrap h

theorem new_keeps (s : Sys) (cap_ l : UInt64) : Frees s.mem (s.new cap_ l).mem none := by
  obtain ⟨c, y, hnew, -⟩ := new_eq s cap_ l
  rw [hnew]
  exact ⟨fun p n _ hn => Memory.Mem.size_alloc_of hn c, fun p hp => by cases hp⟩

theorem drop_frees (h : s.drop i = some s') : Frees s.mem s'.mem (s.sole i) := by
  obtain ⟨x, hx, hdrop⟩ := Option.bind_eq_some_iff.mp h
  cases hdrop
  rw [sole_eq hx]
  have hrelease : ({ s with buffers := s.buffers.set i none } : Sys).release x.buff =
      if s.shared i x.buff then { s with buffers := s.buffers.set i none }
      else ⟨s.mem.free x.buff, s.buffers.set i none⟩ := rfl
  rw [hrelease]
  split
  · exact Frees.refl _
  · refine ⟨fun q n hq hn => ?_, fun q hq => ?_⟩
    · have hne : q ≠ x.buff := fun heq => hq (by rw [heq])
      rw [Memory.Mem.size_free, if_neg hne, hn]
    · rw [Memory.Mem.size_free, if_pos (Option.some.inj hq).symm]

/-- `New(str, len)` appends within the capacity it has asked for. -/
theorem newStr_keeps {str : Pointer} {len : UInt64} (sound : Sound s)
    (h : s.newStr str len = some s') : Frees s.mem s'.mem none := by
  unfold Sys.newStr at h
  split at h
  · cases h
    exact Frees.refl _
  · have hnew := new_keeps s len 0
    have hroom : (s.new len 0).appendExpands s.buffers.length str len = false := by
      have hat : (s.new len 0).buffer s.buffers.length =
          some ⟨(s.mem.alloc (if len < 16 then 16 else len).toNat).2, 0,
            if (if len < 16 then 16 else len) < 0 then if len < 16 then 16 else len else 0,
            if len < 16 then 16 else len⟩ := by
        simp [Sys.new, Sys.buffer]
      have hzero : (if (if len < 16 then (16 : UInt64) else len) < 0
          then if len < 16 then 16 else len else 0) = 0 := if_neg UInt64.not_lt_zero
      have hfits : ¬ (if len < 16 then (16 : UInt64) else len) < 0 + len := by
        rw [UInt64.zero_add]
        split
        · rename_i hsmall
          exact fun hlt => UInt64.lt_irrefl _ (UInt64.lt_trans hlt hsmall)
        · exact UInt64.lt_irrefl len
      simp only [Sys.appendExpands, hat, hzero, Option.any_some, decide_eq_false hfits,
        Bool.and_false]
    have happend := append_frees (sound.new len 0) h
    rw [hroom] at happend
    exact ⟨fun p n hp hn => happend.keeps p n hp (hnew.keeps p n hp hn), fun p hp => by cases hp⟩

theorem step_frees {op : Op} (sound : Sound s) (h : step s op = some s') :
    Frees s.mem s'.mem (s.freed op) := by
  cases op with
  | new cap_ l =>
    cases h
    exact new_keeps s cap_ l
  | newStr str len => exact newStr_keeps sound h
  | newSlice j from_ to_ =>
    obtain ⟨o, -, hslice⟩ := Option.bind_eq_some_iff.mp h
    split at hslice
    · cases hslice
      exact Frees.refl _
    split at hslice
    · cases hslice
      exact Frees.refl _
    split at hslice <;> cases hslice <;> exact Frees.refl _
  | copy i pos ptr l => exact copy_frees sound h
  | append i ptr l => exact append_frees sound h
  | appendBuffer i j =>
    obtain ⟨o, ho, happend⟩ := Option.bind_eq_some_iff.mp h
    rw [Sys.freed, ho, Option.bind_some]
    exact append_frees sound happend
  | drop i => exact drop_frees h

/-! ## Send contexts -/

/-- `buff` is the Buffer it holds on to; `ptr` and `len` are what it hands to writev. -/
structure Queued where
  buff : ℕ
  ptr : Pointer
  len : UInt64
  deriving DecidableEq, Repr

def Queued.Within (m : Mem) (q : Queued) : Prop :=
  ∃ p off n, q.ptr = .block p off ∧ m.size p = some n ∧ off.toNat + q.len.toNat ≤ n

def Pointer.advance (nn : UInt64) : Pointer → Pointer
  | .block p off => .block p (off + nn)
  | ptr => ptr

structure Sending where
  sys : Sys
  held : List ℕ
  queue : List Queued
  deriving DecidableEq, Repr

inductive SendOp where
  | call (op : Op)
  | send (i : ℕ) (len : UInt64)
  | popFront
  | advance (nn : UInt64)
  deriving DecidableEq, Repr

/-- The buffers the application must hold to make the call. -/
def Op.uses : Op → List ℕ
  | .new _ _ | .newStr _ _ => []
  | .newSlice j _ _ => [j]
  | .copy i _ _ _ | .append i _ _ | .drop i => [i]
  | .appendBuffer i j => [i, j]

namespace Sending

def init : Sending := ⟨.init, [], []⟩

def holds (s : Sending) (i : ℕ) : Bool := decide (i ∈ s.held) || s.queue.any (·.buff = i)

def unref (s : Sending) (i : ℕ) : Option Sending :=
  if s.holds i then some s else (s.sys.drop i).map fun sys => { s with sys }

def forget (s : Sending) (i : ℕ) : Sending := { s with held := s.held.filter (· ≠ i) }

def call (s : Sending) (op : Op) : Option Sending :=
  (Buffers.step s.sys op).map fun sys =>
    { s with sys, held := s.held ++
      List.range' s.sys.buffers.length (sys.buffers.length - s.sys.buffers.length) }

def length (x : Buffer) (len : UInt64) : UInt64 := if len = 0 then x.len else len

def send (s : Sending) (i : ℕ) (len : UInt64) : Option Sending := do
  let x ← s.sys.buffer i
  if length x len = 0 then return s
  return { s with queue := s.queue ++ [⟨i, x.BuffPtr, length x len⟩] }

def popFront (s : Sending) : Option Sending :=
  match s.queue with
  | [] => none
  | front :: rest => { s with queue := rest }.unref front.buff

def advance (s : Sending) (nn : UInt64) : Option Sending :=
  match s.queue with
  | [] => none
  | front :: rest =>
    if nn < front.len then
      some { s with
        queue := { front with ptr := front.ptr.advance nn, len := front.len - nn } :: rest }
    else none

end Sending

def sendStep (s : Sending) : SendOp → Option Sending
  | .call op =>
    if op.uses.all fun i => decide (i ∈ s.held) then
      match op with
      | .drop i => (s.forget i).unref i
      | op => s.call op
    else none
  | .send i len => if i ∈ s.held then s.send i len else none
  | .popFront => s.popFront
  | .advance nn => s.advance nn

namespace Sending

def freed (s : Sending) : SendOp → Option ℕ
  | .call (.drop i) => if (s.forget i).holds i then none else s.sys.sole i
  | .call op => s.sys.freed op
  | .popFront => s.queue.head?.bind fun front =>
      if ({ s with queue := s.queue.tail } : Sending).holds front.buff then none
      else s.sys.sole front.buff
  | .send .. | .advance _ => none

def stay (s : Sending) : SendOp → List Queued
  | .popFront => s.queue.tail
  | _ => s.queue

/-- A Send reaches beyond the block of its buffer; or a block goes while a context that stays
points into it. -/
def dangles (s : Sending) (a : SendOp) : Bool :=
  (match a with
    | .send i len => (s.sys.buffer i).any fun x =>
        !decide (length x len = 0) && !x.BuffPtr.readable s.sys.mem (length x len)
    | _ => false) ||
  (s.freed a).any fun p => (s.stay a).any fun q => decide (q.ptr.within = some p)

end Sending

theorem Queued.Within.frees {m m' : Mem} {gone : Option ℕ} {q : Queued} (h : q.Within m)
    (frees : Frees m m' gone) (stays : ∀ p, gone = some p → q.ptr.within ≠ some p) :
    q.Within m' := by
  obtain ⟨p, off, n, hptr, hsize, hbound⟩ := h
  refine ⟨p, off, n, hptr, frees.keeps p n (fun hgone => ?_) hsize, hbound⟩
  exact stays p hgone (by rw [hptr]; rfl)

theorem Queued.Within.advance {m : Mem} {q : Queued} {nn : UInt64} (h : q.Within m)
    (sized : ∀ p n, m.size p = some n → n < 2 ^ 64) (less : nn < q.len) :
    Queued.Within m { q with ptr := q.ptr.advance nn, len := q.len - nn } := by
  obtain ⟨p, off, n, hptr, hsize, hbound⟩ := h
  have hlt := sized p n hsize
  rw [UInt64.lt_iff_toNat_lt] at less
  refine ⟨p, off + nn, n, by rw [hptr]; rfl, hsize, ?_⟩
  have hlen : (q.len - nn).toNat = q.len.toNat - nn.toNat :=
    UInt64.toNat_sub_of_le _ _ (UInt64.le_iff_toNat_le.mpr (Nat.le_of_lt less))
  have hoff : (off + nn).toNat = off.toNat + nn.toNat := by
    rw [UInt64.toNat_add]
    exact Nat.mod_eq_of_lt (by omega)
  show (off + nn).toNat + (q.len - nn).toNat ≤ n
  omega

namespace Sending

variable {t t' : Sending} {a : SendOp}

theorem unref_frees (sound : Sound t.sys) {i : ℕ} (h : t.unref i = some t') :
    t'.queue = t.queue ∧ Sound t'.sys ∧
      Frees t.sys.mem t'.sys.mem (if t.holds i then none else t.sys.sole i) := by
  unfold unref at h
  split at h
  · cases h
    rename_i held
    rw [if_pos held]
    exact ⟨rfl, sound, Frees.refl _⟩
  · rename_i held
    obtain ⟨sys, hdrop, rfl⟩ := Option.map_eq_some_iff.mp h
    have hstep : Buffers.step t.sys (.drop i) = some sys := hdrop
    rw [if_neg held]
    exact ⟨rfl, step_sound sound hstep, drop_frees hdrop⟩

theorem call_frees (sound : Sound t.sys) {op : Op} (h : t.call op = some t') :
    t'.queue = t.queue ∧ Sound t'.sys ∧ Frees t.sys.mem t'.sys.mem (t.sys.freed op) := by
  obtain ⟨sys, hstep, rfl⟩ := Option.map_eq_some_iff.mp h
  exact ⟨rfl, step_sound sound hstep, step_frees sound hstep⟩

inductive Moves (t : Sending) : SendOp → Sending → Prop where
  | stays {a : SendOp} {t' : Sending} (silent : ∀ i len, a ≠ .send i len)
      (queue : t'.queue = t.stay a) (frees : Frees t.sys.mem t'.sys.mem (t.freed a)) :
      Moves t a t'
  | empty {i : ℕ} {len : UInt64} {x : Buffer} (at_ : t.sys.buffer i = some x)
      (zero : length x len = 0) : Moves t (.send i len) t
  | sends {i : ℕ} {len : UInt64} {x : Buffer} (at_ : t.sys.buffer i = some x)
      (positive : length x len ≠ 0) :
      Moves t (.send i len) { t with queue := t.queue ++ [⟨i, x.BuffPtr, length x len⟩] }
  | advances {nn : UInt64} {front : Queued} {rest : List Queued}
      (queue : t.queue = front :: rest) (less : nn < front.len) :
      Moves t (.advance nn) { t with
        queue := { front with ptr := front.ptr.advance nn, len := front.len - nn } :: rest }

theorem sendStep_moves (sound : Sound t.sys) (h : sendStep t a = some t') :
    Sound t'.sys ∧ Moves t a t' := by
  cases a with
  | call op =>
    simp only [sendStep] at h
    split at h
    · cases op with
      | drop i =>
        obtain ⟨hqueue, hsound, hfrees⟩ := unref_frees (t := t.forget i) sound h
        exact ⟨hsound, .stays (fun _ _ h => by cases h) hqueue hfrees⟩
      | _ =>
        obtain ⟨hqueue, hsound, hfrees⟩ := call_frees sound h
        exact ⟨hsound, .stays (fun _ _ h => by cases h) hqueue hfrees⟩
    · cases h
  | send i len =>
    simp only [sendStep] at h
    split at h
    · obtain ⟨x, hx, hrest⟩ := Option.bind_eq_some_iff.mp h
      split at hrest
      · cases hrest
        exact ⟨sound, .empty hx (by assumption)⟩
      · cases hrest
        exact ⟨sound, .sends hx (by assumption)⟩
    · cases h
  | popFront =>
    simp only [sendStep, popFront] at h
    split at h
    · cases h
    · rename_i front rest hqueue
      obtain ⟨hqueue', hsound, hfrees⟩ := unref_frees (t := { t with queue := rest }) sound h
      refine ⟨hsound, .stays (fun _ _ h => by cases h) ?_ ?_⟩
      · rw [hqueue', stay, hqueue]
        rfl
      · rw [freed, hqueue]
        exact hfrees
  | advance nn =>
    simp only [sendStep, advance] at h
    split at h
    · cases h
    · rename_i front rest hqueue
      split at h
      · rename_i less
        cases h
        exact ⟨sound, .advances hqueue less⟩
      · cases h

theorem dangles_stays (silent : ∀ i len, a ≠ .send i len) : t.dangles a = true ↔
    ∃ p q, t.freed a = some p ∧ q ∈ t.stay a ∧ q.ptr.within = some p := by
  have hdangles : t.dangles a =
      (t.freed a).any fun p => (t.stay a).any fun q => decide (q.ptr.within = some p) := by
    cases a with
    | send i len => exact absurd rfl (silent i len)
    | call | popFront | advance => exact Bool.false_or _
  rw [hdangles, Option.any_eq_true]
  constructor
  · rintro ⟨p, hp, hany⟩
    obtain ⟨q, hq, hwithin⟩ := List.any_eq_true.mp hany
    exact ⟨p, q, hp, hq, of_decide_eq_true hwithin⟩
  · rintro ⟨p, q, hp, hq, hwithin⟩
    exact ⟨p, hp, List.any_eq_true.mpr ⟨q, hq, decide_eq_true hwithin⟩⟩

theorem readable_iff {x : Buffer} {m : Mem} {len : UInt64} {i : ℕ} :
    x.BuffPtr.readable m len = true ↔ Queued.Within m ⟨i, x.BuffPtr, len⟩ := by
  simp only [Buffer.BuffPtr, Pointer.readable, Option.any_eq_true, decide_eq_true_eq]
  constructor
  · rintro ⟨n, hn, hbound⟩
    exact ⟨x.buff, x.b, n, rfl, hn, hbound⟩
  · rintro ⟨p, off, n, hptr, hn, hbound⟩
    cases hptr
    exact ⟨n, hn, hbound⟩

/-- One step: the queue stays within its blocks exactly where nothing dangles. -/
theorem within_step (sound : Sound t.sys) (inv : ∀ q ∈ t.queue, q.Within t.sys.mem)
    (h : sendStep t a = some t') :
    (∀ q ∈ t'.queue, q.Within t'.sys.mem) ↔ t.dangles a = false := by
  obtain ⟨-, hmoves⟩ := sendStep_moves sound h
  cases hmoves with
  | stays silent queue frees =>
    rw [queue, Bool.eq_false_iff, Ne, dangles_stays silent]
    have hstay (q : Queued) (hq : q ∈ t.stay a) : q ∈ t.queue := by
      cases a <;> first | exact hq | exact List.mem_of_mem_tail hq
    constructor
    · rintro hall ⟨p, q, hp, hq, hwithin⟩
      obtain ⟨p', off, n, hptr, hsize, -⟩ := hall q hq
      rw [hptr] at hwithin
      cases hwithin
      cases (frees.frees p hp).symm.trans hsize
    · intro hnone q hq
      exact (inv q (hstay q hq)).frees frees fun p hp hwithin => hnone ⟨p, q, hp, hq, hwithin⟩
  | @empty i len x at_ zero =>
    have hfine : t.dangles (.send i len) = false := by
      simp [dangles, freed, at_, zero]
    exact ⟨fun _ => hfine, fun _ => inv⟩
  | @sends i len x at_ positive =>
    have hdangles : t.dangles (.send i len) =
        !x.BuffPtr.readable t.sys.mem (length x len) := by
      simp [dangles, freed, at_, positive]
    rw [hdangles, Bool.not_eq_false', readable_iff (i := i)]
    constructor
    · exact fun hall => hall _ (List.mem_append_right _ (List.mem_singleton.mpr rfl))
    · intro hnew q hq
      rcases List.mem_append.mp hq with hq | hq
      · exact inv q hq
      · rw [List.mem_singleton.mp hq]
        exact hnew
  | @advances nn front rest queue less =>
    have hfine : t.dangles (.advance nn) = false := rfl
    refine ⟨fun _ => hfine, fun _ q hq => ?_⟩
    rcases List.mem_cons.mp hq with rfl | hq
    · exact (inv front (by rw [queue]; exact List.mem_cons_self)).advance sound.sized less
    · exact inv q (by rw [queue]; exact List.mem_cons_of_mem _ hq)

end Sending

/-- Where no Send reaches beyond the block of its buffer, and no block goes while a queued context
points into it: each queued context lies within a block that is still there. -/
theorem queued_within {t : Sending}
    (h : Machine.Runs sendStep (fun t a => t.dangles a = false) .init t) :
    ∀ q ∈ t.queue, ∃ p off n, q.ptr = .block p off ∧ t.sys.mem.size p = some n ∧
      off.toNat + q.len.toNat ≤ n := by
  have inv : Sound t.sys ∧ ∀ q ∈ t.queue, q.Within t.sys.mem := by
    refine h.invariant (I := fun t => Sound t.sys ∧ ∀ q ∈ t.queue, q.Within t.sys.mem)
      ⟨sound_init, fun q hq => by cases hq⟩ fun u v a _ inv fine hstep => ?_
    exact ⟨(Sending.sendStep_moves inv.1 hstep).1,
      (Sending.within_step inv.1 inv.2 hstep).mpr fine⟩
  exact inv.2

def sharedRun : List SendOp :=
  [.call (.new 16 4), .call (.newSlice 0 1 3), .send 1 0, .call (.drop 1),
    .call (.append 0 (.outside [1, 2, 3]) 3), .call (.copy 0 0 (.outside [5]) 1), .advance 1]

theorem queued_within_shared : ∃ t, Machine.exec
      (Machine.guarded (fun t a => !t.dangles a) sendStep) .init sharedRun = some t ∧
    t.queue = [⟨1, .block 0 2, 1⟩] ∧
    ∀ q ∈ t.queue, ∃ p off n, q.ptr = .block p off ∧ t.sys.mem.size p = some n ∧
      off.toNat + q.len.toNat ≤ n := by
  have h : (Machine.exec (Machine.guarded (fun t a => !t.dangles a) sendStep) .init
      sharedRun).map (fun t => t.queue) = some [⟨1, .block 0 2, 1⟩] := by decide
  obtain ⟨t, ht, hqueue⟩ := Option.map_eq_some_iff.mp h
  exact ⟨t, ht, hqueue, queued_within (.avoiding sharedRun ht)⟩

def danglingRun : List SendOp :=
  [.call (.new 16 16), .send 0 0, .call (.append 0 (.outside [1]) 1)]

theorem queued_dangles : ∃ t, Machine.exec sendStep .init danglingRun = some t ∧
    t.queue = [⟨0, .block 0 0, 16⟩] ∧ t.sys.mem.size 0 = none := by
  have h : (Machine.exec sendStep .init danglingRun).map (fun t =>
      (t.queue, t.sys.mem.size 0)) = some ([⟨0, .block 0 0, 16⟩], none) := by decide
  obtain ⟨t, ht, hview⟩ := Option.map_eq_some_iff.mp h
  simp only [Prod.mk.injEq] at hview
  exact ⟨t, ht, hview⟩

end Hwnet.Buffers
