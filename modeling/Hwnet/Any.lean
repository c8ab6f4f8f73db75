import Hwnet.Machine
import Mathlib.Algebra.Group.Pi.Basic
import Mathlib.Algebra.Group.Nat.Defs
import Mathlib.Algebra.Ring.Int.Defs
import Mathlib.Data.List.Basic

set_option autoImplicit false

/-!
# Values of any type

An `any` points to a holder of its value and to the counter that all the objects with that holder
share. An object that is assigned an empty one keeps the pointer to its old counter. The values are
of types without `any` members: the destructor of a held value lets go of no other object.
-/
namespace Hwnet.AnyObject

/-! ## Holders and counters -/

structure Any where
  content : Option ℕ
  counter : Option ℕ
  deriving DecidableEq, Repr

inductive Cell where
  | holder (h : ℕ)
  | counter (c : ℕ)
  deriving DecidableEq, Repr

/-- The holders and the counters that were allocated, each of them gone once it is deleted; what
was deleted is kept beside the code. -/
structure Heap (V : Type) where
  holders : List (Option V)
  counters : List (Option Int32)
  deleted : List Cell

namespace Heap

variable {V : Type}

/-- `_destroy`; a pointer to what is gone has no meaning. Nothing but the two cells goes with the
held value. -/
def destroy (s : Heap V) (a : Any) : Option (Heap V) :=
  match a.counter, a.content with
  | some counter, some content => do
    let n ← s.counters[counter]?.join
    if n - 1 ≤ 0 then
      let _ ← s.holders[content]?.join
      return {
        holders := s.holders.set content none
        counters := s.counters.set counter none
        deleted := .holder content :: .counter counter :: s.deleted }
    else return { s with counters := s.counters.set counter (some (n - 1)) }
  | _, _ => some s

/-- The pointers of a copy of `other`, which are `otherwise` if it is empty. -/
def share (s : Heap V) (other otherwise : Any) : Option (Heap V × Any) :=
  match other.counter, other.content with
  | some counter, some _ => do
    let n ← s.counters[counter]?.join
    return ({ s with counters := s.counters.set counter (some (n + 1)) }, other)
  | _, _ => some (s, otherwise)

def create (s : Heap V) (value : V) : Heap V × Any :=
  ({ s with holders := s.holders ++ [some value], counters := s.counters ++ [some 1] },
    ⟨some s.holders.length, some s.counters.length⟩)

end Heap

/-! ## Objects -/

structure Objects (V : Type) where
  objects : List (Option Any)
  heap : Heap V

inductive Op (V : Type) where
  | empty
  | value (v : V)
  | copy (o : ℕ)
  | move (o : ℕ)
  | assign (o p : ℕ)
  | destroy (o : ℕ)
  deriving DecidableEq, Repr

namespace Objects

variable {V : Type}

def new : Objects V := ⟨[], ⟨[], [], []⟩⟩

def object (s : Objects V) (o : ℕ) : Option Any := s.objects[o]?.join

def call (s : Objects V) : Op V → Option (Objects V)
  | .empty => some { s with objects := s.objects ++ [some ⟨none, none⟩] }
  | .value v =>
    let (heap, a) := s.heap.create v
    some ⟨s.objects ++ [some a], heap⟩
  | .copy o => do
    let other ← s.object o
    let (heap, a) ← s.heap.share other ⟨none, none⟩
    return ⟨s.objects ++ [some a], heap⟩
  | .move o => do
    let other ← s.object o
    return { s with objects := s.objects.set o (some ⟨none, none⟩) ++ [some other] }
  | .assign o p =>
    if o = p then some s
    else do
      let a ← s.object o
      let heap ← s.heap.destroy a
      let rhs ← s.object p
      -- the counter of the old holder stays where `rhs` is empty
      let (heap, a) ← heap.share rhs { a with content := none }
      return ⟨s.objects.set o (some a), heap⟩
  | .destroy o => do
    let a ← s.object o
    let heap ← s.heap.destroy a
    return ⟨s.objects.set o none, heap⟩

def allowed (s : Objects V) : Op V → Bool
  | .empty | .value _ => true
  | .copy o | .move o | .destroy o => (s.object o).isSome
  | .assign o p => (s.object o).isSome && (s.object p).isSome

def step (s : Objects V) (op : Op V) : Option (Objects V) :=
  if s.allowed op then s.call op else none

end Objects

/-! ## Counting -/

def Any.points (a : Any) (h : ℕ) : ℕ := if a.content = some h then 1 else 0

def sharers (objects : List (Option Any)) (h : ℕ) : ℕ :=
  objects.countP fun o => (o.bind Any.content) = some h

structure Counted {V : Type} (s : Heap V) (h k : ℕ) : Prop where
  beyond : s.holders.length ≤ h → k = 0
  live : 0 < k → (∃ v, s.holders[h]? = some (some v)) ∧
    ∃ n, s.counters[h]? = some (some n) ∧ n.toInt = k
  gone : h < s.holders.length → k = 0 → s.holders[h]? = some none ∧ s.counters[h]? = some none
  once : s.deleted.count (.holder h) = (if h < s.holders.length ∧ k = 0 then 1 else 0) ∧
    s.deleted.count (.counter h) = if h < s.holders.length ∧ k = 0 then 1 else 0

structure Balanced {V : Type} (s : Heap V) (k : ℕ → ℕ) : Prop where
  same : s.counters.length = s.holders.length
  counted : ∀ h, Counted s h (k h)

def Any.Paired (a : Any) : Prop := ∀ h, a.content = some h → a.counter = some h

section Counter

variable {n : Int32}

theorem toInt_pred (pos : 0 < n.toInt) : (n - 1).toInt = n.toInt - 1 := by
  have hlt := n.toInt_lt
  rw [Int32.toInt_sub]
  exact Int.bmod_eq_of_le (by simp; omega) (by simp; omega)

theorem toInt_succ (fits : n.toInt + 1 < 2 ^ 31) : (n + 1).toInt = n.toInt + 1 := by
  have hle := n.le_toInt
  rw [Int32.toInt_add]
  exact Int.bmod_eq_of_le (by simp; omega) (by simp; omega)

theorem toInt_wraps (full : n.toInt + 1 = 2 ^ 31) : (n + 1).toInt = -2 ^ 31 := by
  rw [Int32.toInt_add, Int32.toInt_one, full]
  rfl

end Counter

section Heap

variable {V : Type} {s s' : Heap V} {k : ℕ → ℕ} {a b : Any} {h : ℕ}

theorem Any.points_of_empty (empty : a.content = none) : a.points = 0 := by
  funext h
  simp [points, empty]

theorem Any.points_self (content : a.content = some h) : a.points h = 1 := if_pos content

theorem Any.points_of_ne (content : a.content = some h) {g : ℕ} (ne : g ≠ h) : a.points g = 0 := by
  refine if_neg fun hg => ne ?_
  exact Option.some.inj (hg.symm.trans content)

theorem Counted.frame {m : ℕ} (hc : Counted s h m)
    (length : s'.holders.length = s.holders.length)
    (holder : s'.holders[h]? = s.holders[h]?) (counter : s'.counters[h]? = s.counters[h]?)
    (deleted : s'.deleted.count (.holder h) = s.deleted.count (.holder h) ∧
      s'.deleted.count (.counter h) = s.deleted.count (.counter h)) : Counted s' h m := by
  refine ⟨?_, ?_, ?_, ?_⟩
  · rw [length]
    exact hc.beyond
  · rw [holder, counter]
    exact hc.live
  · rw [length, holder, counter]
    exact hc.gone
  · rw [length, deleted.1, deleted.2]
    exact hc.once

theorem getElem?_set_of_ne {α : Type} {l : List α} {g : ℕ} (ne : g ≠ h) (x : α) :
    (l.set h x)[g]? = l[g]? := by
  rw [List.getElem?_set, if_neg (Ne.symm ne)]

theorem Balanced.setCounter (hs : Balanced s k) {n : Int32} {k' : ℕ → ℕ} (live : 0 < k h)
    (live' : 0 < k' h) (value : n.toInt = k' h) (others : ∀ g, g ≠ h → k' g = k g) :
    Balanced { s with counters := s.counters.set h (some n) } k' := by
  obtain ⟨⟨v, hv⟩, -⟩ := (hs.counted h).live live
  have hlt : h < s.holders.length := (List.getElem?_eq_some_iff.mp hv).1
  refine ⟨by simp [hs.same], fun g => ?_⟩
  by_cases hg : g = h
  · subst hg
    have honce := (hs.counted g).once
    rw [if_neg (by omega)] at honce
    refine ⟨fun hle => absurd hlt (Nat.not_lt.mpr hle), fun _ => ⟨⟨v, hv⟩, n, ?_, value⟩,
      fun _ hzero => absurd live' (by omega), ?_⟩
    · exact List.getElem?_set_self (hs.same ▸ hlt)
    · rw [if_neg (by omega)]
      exact honce
  · rw [others g hg]
    exact (hs.counted g).frame rfl rfl (getElem?_set_of_ne hg _) ⟨rfl, rfl⟩

/-- An object lets go of its holder, which goes with the last one. -/
theorem Balanced.destroy (hs : Balanced s (k + a.points)) (paired : a.Paired) :
    ∃ s', s.destroy a = some s' ∧ Balanced s' k := by
  cases hcontent : a.content with
  | none =>
    rw [a.points_of_empty hcontent, add_zero] at hs
    refine ⟨s, ?_, hs⟩
    unfold Heap.destroy
    rw [hcontent]
    cases a.counter <;> rfl
  | some h =>
    have hk : (k + a.points) h = k h + 1 := by
      rw [Pi.add_apply, Any.points_self hcontent]
    have hother {g : ℕ} (ne : g ≠ h) : (k + a.points) g = k g := by
      rw [Pi.add_apply, Any.points_of_ne hcontent ne, Nat.add_zero]
    obtain ⟨⟨v, hv⟩, n, hn, hcount⟩ := (hs.counted h).live (by omega)
    rw [hk] at hcount
    have hpred : (n - 1).toInt = k h := by
      rw [toInt_pred (by omega)]
      omega
    have hle : n - 1 ≤ 0 ↔ k h = 0 := by
      rw [Int32.le_iff_toInt_le, hpred, Int32.toInt_zero]
      omega
    have hlt : h < s.holders.length := (List.getElem?_eq_some_iff.mp hv).1
    simp only [Heap.destroy, paired h hcontent, hcontent, hn, hv, Option.join_some,
      Option.bind_eq_bind, Option.bind_some]
    by_cases hlast : k h = 0
    · rw [if_pos (hle.mpr hlast)]
      refine ⟨_, rfl, by simp [hs.same], fun g => ?_⟩
      by_cases hg : g = h
      · subst hg
        have honce := (hs.counted g).once
        rw [if_neg (by omega)] at honce
        refine ⟨fun _ => hlast, fun hpos => absurd hlast (by omega), fun _ _ => ⟨?_, ?_⟩, ?_⟩
        · exact List.getElem?_set_self hlt
        · exact List.getElem?_set_self (hs.same ▸ hlt)
        · have hlt' : g < (s.holders.set g none).length := by simpa using hlt
          rw [if_pos ⟨hlt', hlast⟩]
          simp [honce.1, honce.2]
      · have hc := hs.counted g
        rw [hother hg] at hc
        refine hc.frame (by simp) (getElem?_set_of_ne hg _) (getElem?_set_of_ne hg _) ?_
        simp [Ne.symm hg]
    · rw [if_neg fun hzero => hlast (hle.mp hzero)]
      exact ⟨_, rfl, hs.setCounter (by omega) (by omega) hpred fun g hg => (hother hg).symm⟩

theorem Balanced.share (hs : Balanced s k) (paired : b.Paired)
    (live : ∀ h, b.content = some h → 0 < k h) (fits : ∀ h, b.content = some h → k h + 1 < 2 ^ 31)
    (otherwise : Any) (empty : otherwise.content = none) :
    ∃ s' a, s.share b otherwise = some (s', a) ∧ Balanced s' (k + a.points) ∧ a.Paired := by
  cases hcontent : b.content with
  | none =>
    refine ⟨s, otherwise, ?_, ?_, fun h hh => nomatch empty.symm.trans hh⟩
    · unfold Heap.share
      rw [hcontent]
      cases b.counter <;> rfl
    · rw [Any.points_of_empty empty, add_zero]
      exact hs
  | some h =>
    obtain ⟨-, n, hn, hcount⟩ := (hs.counted h).live (live h hcontent)
    have hfits := fits h hcontent
    have hk : (k + b.points) h = k h + 1 := by
      rw [Pi.add_apply, Any.points_self hcontent]
    simp only [Heap.share, paired h hcontent, hcontent, hn, Option.join_some,
      Option.bind_eq_bind, Option.bind_some]
    refine ⟨_, b, rfl, hs.setCounter (live h hcontent) (by omega) ?_ fun g hg => ?_, paired⟩
    · rw [toInt_succ (by omega), hk]
      omega
    · rw [Pi.add_apply, Any.points_of_ne hcontent hg, Nat.add_zero]

/-- An object too many: the counter wraps around. -/
theorem Balanced.share_wraps (hs : Balanced s k) (paired : b.Paired) (content : b.content = some h)
    (full : k h + 1 = 2 ^ 31) (otherwise : Any) :
    ∃ s' n, s.share b otherwise = some (s', b) ∧ s'.counters[h]? = some (some n) ∧
      n.toInt < 0 := by
  obtain ⟨⟨v, hv⟩, n, hn, hcount⟩ := (hs.counted h).live (by omega)
  have hlt : h < s.counters.length := (List.getElem?_eq_some_iff.mp hn).1
  refine ⟨{ s with counters := s.counters.set h (some (n + 1)) }, n + 1, ?_,
    List.getElem?_set_self hlt, ?_⟩
  · simp only [Heap.share, paired h content, content, hn, Option.join_some, Option.bind_eq_bind,
      Option.bind_some]
    rfl
  · rw [toInt_wraps (by omega)]
    decide

/-- A new holder has one object. -/
theorem Balanced.create (hs : Balanced s k) (value : V) :
    Balanced (s.create value).1 (k + (s.create value).2.points) := by
  have hnew : (s.create value).2.content = some s.holders.length := rfl
  refine ⟨by simp [Heap.create, hs.same], fun g => ?_⟩
  rw [Pi.add_apply]
  have hc := hs.counted g
  by_cases hg : g = s.holders.length
  · have hzero := hc.beyond (Nat.le_of_eq hg.symm)
    have honce := hc.once
    rw [if_neg (by omega)] at honce
    rw [hzero, hg, Any.points_self hnew]
    subst hg
    refine ⟨fun hle => absurd hle (by simp [Heap.create]), fun _ => ⟨⟨value, ?_⟩, 1, ?_, rfl⟩,
      nofun, ?_⟩
    · simp [Heap.create]
    · simp [Heap.create, ← hs.same]
    · rw [if_neg (by omega)]
      exact honce
  · rw [Any.points_of_ne hnew hg, Nat.add_zero]
    have hlength : (s.create value).1.holders.length = s.holders.length + 1 := by
      simp [Heap.create]
    by_cases hlt : g < s.holders.length
    · have hholder : (s.create value).1.holders[g]? = s.holders[g]? :=
        List.getElem?_append_left hlt
      have hcounter : (s.create value).1.counters[g]? = s.counters[g]? :=
        List.getElem?_append_left (hs.same ▸ hlt)
      refine ⟨fun hle => absurd hlt (by omega), ?_, fun _ => ?_, ?_⟩
      · rw [hholder, hcounter]
        exact hc.live
      · rw [hholder, hcounter]
        exact hc.gone hlt
      · have honce := hc.once
        simp only [hlt, true_and] at honce
        have hlt' : g < (s.create value).1.holders.length := by omega
        simp only [hlt', true_and]
        exact honce
    · have hzero := hc.beyond (Nat.not_lt.mp hlt)
      have honce := hc.once
      rw [if_neg (by omega)] at honce
      refine ⟨fun _ => hzero, fun hpos => absurd hzero (by omega), fun hlt' _ => ?_, ?_⟩
      · omega
      · rw [if_neg (by omega)]
        exact honce

end Heap

/-! ## The objects and the heap -/

section Sharers

variable {objects : List (Option Any)} {a : Any} {o p h : ℕ}

theorem sharers_append (objects : List (Option Any)) (a : Any) :
    sharers (objects ++ [some a]) = sharers objects + a.points := by
  funext h
  simp only [sharers, List.countP_append, List.countP_singleton, Pi.add_apply, Any.points,
    Option.bind_some, decide_eq_true_eq]

theorem sharers_set (old : Option Any) (there : objects[o]? = some old) (a : Any) :
    sharers (objects.set o (some a)) = sharers (objects.set o none) + a.points := by
  funext h
  have hnew := Machine.countP_set_add (fun x => decide (x.bind Any.content = some h)) there (some a)
  have hnone := Machine.countP_set_add (fun x => decide (x.bind Any.content = some h)) there none
  have hpoints : (decide ((some a).bind Any.content = some h)).toNat = a.points h := by
    by_cases hc : a.content = some h <;> simp [Any.points, hc]
  simp only [sharers, Pi.add_apply]
  simp only [Option.bind_none] at hnone
  rw [hpoints] at hnew
  simp only [reduceCtorEq, decide_false, Bool.toNat_false] at hnone
  omega

theorem sharers_of_object (there : objects[o]? = some (some a)) :
    sharers objects = sharers (objects.set o none) + a.points := by
  obtain ⟨hlt, hget⟩ := List.getElem?_eq_some_iff.mp there
  have hsame : objects.set o (some a) = objects := by rw [← hget, List.set_getElem_self]
  rw [← sharers_set _ there a, hsame]

theorem sharers_pos (there : objects[o]? = some (some a)) (content : a.content = some h) :
    0 < sharers objects h :=
  Machine.countP_pos_of_getElem? _ there (by simp [content])

end Sharers

namespace Objects

variable {V : Type} {s s' : Objects V} {o p h : ℕ} {a b : Any}

structure Sound (s : Objects V) : Prop where
  balanced : Balanced s.heap (sharers s.objects)
  paired : ∀ o a, s.object o = some a → a.Paired

/-- The holder that object `p` shares has as many objects as its counter can count. -/
def full (objects : List (Option Any)) (p : ℕ) : Bool :=
  ((objects[p]?.join).bind Any.content).any fun h => sharers objects h + 1 = 2 ^ 31

def overflows (s : Objects V) : Op V → Bool
  | .copy o => full s.objects o
  | .assign o p => o ≠ p && full (s.objects.set o none) p
  | _ => false

theorem object_eq : s.object o = some a ↔ s.objects[o]? = some (some a) :=
  Option.join_eq_some_iff

theorem object_append (x : Any) (hobject : (s.objects ++ [some x])[o]?.join = some a) :
    s.object o = some a ∨ a = x := by
  rw [Option.join_eq_some_iff] at hobject
  by_cases hlt : o < s.objects.length
  · rw [List.getElem?_append_left hlt] at hobject
    exact .inl (object_eq.mpr hobject)
  · rw [List.getElem?_append_right (Nat.not_lt.mp hlt), List.getElem?_singleton] at hobject
    split_ifs at hobject
    exact .inr (Option.some.inj (Option.some.inj hobject)).symm

theorem object_set {x : Option Any} (hobject : (s.objects.set p x)[o]?.join = some a) :
    s.object o = some a ∨ x = some a := by
  rw [Option.join_eq_some_iff] at hobject
  rcases Machine.of_getElem?_set hobject with ⟨-, hx⟩ | ⟨-, hthere⟩
  · exact .inr hx.symm
  · exact .inl (object_eq.mpr hthere)

theorem fits_of_full {objects : List (Option Any)} {heap : Heap V}
    (hs : Balanced heap (sharers objects)) (there : objects[p]? = some (some b))
    (room : full objects p = false) (content : b.content = some h) :
    0 < sharers objects h ∧ sharers objects h + 1 < 2 ^ 31 := by
  have hpos := sharers_pos there content
  obtain ⟨-, n, -, hn⟩ := (hs.counted h).live hpos
  have hlt := n.toInt_lt
  have hne : sharers objects h + 1 ≠ 2 ^ 31 := by
    simpa [full, there, content] using room
  exact ⟨hpos, by omega⟩

theorem Sound.append {heap : Heap V} (others : ∀ o x, s.object o = some x → x.Paired)
    (balanced : Balanced heap (sharers s.objects + a.points)) (paired : a.Paired) :
    Sound ⟨s.objects ++ [some a], heap⟩ := by
  refine ⟨?_, fun o x hx => ?_⟩
  · show Balanced heap (sharers (s.objects ++ [some a]))
    rw [sharers_append]
    exact balanced
  · rcases object_append _ hx with hx | rfl
    · exact others o x hx
    · exact paired

theorem Sound.set (hs : Sound s) {heap : Heap V} {x : Option Any}
    (balanced : Balanced heap (sharers (s.objects.set o x)))
    (paired : ∀ a, x = some a → a.Paired) : Sound ⟨s.objects.set o x, heap⟩ := by
  refine ⟨balanced, fun p a hp => ?_⟩
  rcases object_set hp with hp | hx
  · exact hs.paired p a hp
  · exact paired a hx

/-- A call that does not overflow has its meaning and keeps the counters right. -/
theorem Sound.call (hs : Sound s) {op : Op V} (hallowed : s.allowed op = true)
    (room : s.overflows op = false) : ∃ s', s.call op = some s' ∧ Sound s' := by
  cases op with
  | empty =>
    refine ⟨_, rfl, .append hs.paired ?_ nofun⟩
    rw [Any.points_of_empty rfl, add_zero]
    exact hs.balanced
  | value v =>
    refine ⟨_, rfl, .append hs.paired (hs.balanced.create v) fun h hh => ?_⟩
    obtain rfl := Option.some.inj hh
    exact congrArg some hs.balanced.same
  | copy o =>
    obtain ⟨b, hb⟩ := Option.isSome_iff_exists.mp hallowed
    have hfits (h : ℕ) (hh : b.content = some h) :=
      fits_of_full hs.balanced (object_eq.mp hb) room hh
    obtain ⟨heap, a, hshare, hbalanced, hpaired⟩ := hs.balanced.share (hs.paired o b hb)
      (fun h hh => (hfits h hh).1) (fun h hh => (hfits h hh).2) ⟨none, none⟩ rfl
    refine ⟨⟨s.objects ++ [some a], heap⟩, ?_, .append hs.paired hbalanced hpaired⟩
    simp only [Objects.call, hb, hshare, Option.bind_eq_bind, Option.bind_some]
    rfl
  | move o =>
    obtain ⟨b, hb⟩ := Option.isSome_iff_exists.mp hallowed
    have hthere := object_eq.mp hb
    have hothers (p : ℕ) (x : Any)
        (hx : Objects.object ⟨s.objects.set o (some ⟨none, none⟩), s.heap⟩ p = some x) :
        x.Paired := by
      rcases object_set hx with hx | hx
      · exact hs.paired p x hx
      · obtain rfl := Option.some.inj hx
        exact nofun
    refine ⟨{ s with objects := s.objects.set o (some ⟨none, none⟩) ++ [some b] }, ?_,
      .append hothers ?_ (hs.paired o b hb)⟩
    · simp only [Objects.call, hb, Option.bind_eq_bind, Option.bind_some]
      rfl
    · rw [sharers_set _ hthere, Any.points_of_empty rfl, add_zero, ← sharers_of_object hthere]
      exact hs.balanced
  | assign o p =>
    obtain ⟨ho, hp⟩ := (Bool.and_eq_true _ _).mp hallowed
    obtain ⟨a, ha⟩ := Option.isSome_iff_exists.mp ho
    obtain ⟨b, hb⟩ := Option.isSome_iff_exists.mp hp
    by_cases hop : o = p
    · exact ⟨s, if_pos hop, hs⟩
    · have hthere := object_eq.mp ha
      -- `rhs` still points to its holder when the old one has been let go
      have hrest : (s.objects.set o none)[p]? = some (some b) := by
        rw [List.getElem?_set, if_neg hop]
        exact object_eq.mp hb
      have hbefore := hs.balanced
      rw [sharers_of_object hthere] at hbefore
      obtain ⟨heap, hdestroy, hmiddle⟩ := hbefore.destroy (hs.paired o a ha)
      have hroom : full (s.objects.set o none) p = false := by
        simpa [overflows, hop] using room
      have hfits (h : ℕ) (hh : b.content = some h) := fits_of_full hmiddle hrest hroom hh
      obtain ⟨heap', a', hshare, hbalanced, hpaired⟩ := hmiddle.share (hs.paired p b hb)
        (fun h hh => (hfits h hh).1) (fun h hh => (hfits h hh).2) { a with content := none } rfl
      refine ⟨⟨s.objects.set o (some a'), heap'⟩, ?_, hs.set ?_ fun x hx => ?_⟩
      · simp only [Objects.call, if_neg hop, ha, hb, hdestroy, hshare, Option.bind_eq_bind,
          Option.bind_some]
        rfl
      · rw [sharers_set _ hthere]
        exact hbalanced
      · obtain rfl := Option.some.inj hx
        exact hpaired
  | destroy o =>
    obtain ⟨a, ha⟩ := Option.isSome_iff_exists.mp hallowed
    have hbefore := hs.balanced
    rw [sharers_of_object (object_eq.mp ha)] at hbefore
    obtain ⟨heap, hdestroy, hbalanced⟩ := hbefore.destroy (hs.paired o a ha)
    refine ⟨⟨s.objects.set o none, heap⟩, ?_, hs.set hbalanced fun x hx => by cases hx⟩
    simp only [Objects.call, ha, hdestroy, Option.bind_eq_bind, Option.bind_some]
    rfl

/-! ## Every state of a run -/

/-- What is to hold: a live holder has the counter that its objects point to, with their number;
each holder and its counter are deleted once, when no object is left; and no call meets what was
deleted. -/
structure Good (s : Objects V) : Prop where
  points : ∀ o a h, s.object o = some a → a.content = some h →
    a.counter = some h ∧ ∃ v, s.heap.holders[h]? = some (some v)
  counted : ∀ h v, s.heap.holders[h]? = some (some v) → 0 < sharers s.objects h ∧
    ∃ n, s.heap.counters[h]? = some (some n) ∧ n.toInt = sharers s.objects h
  once : ∀ h,
    s.heap.deleted.count (.holder h) =
      (if h < s.heap.holders.length ∧ sharers s.objects h = 0 then 1 else 0) ∧
    s.heap.deleted.count (.counter h) =
      if h < s.heap.holders.length ∧ sharers s.objects h = 0 then 1 else 0
  safe : ∀ op : Op V, s.allowed op = true → (s.call op).isSome = true

theorem not_good {n : Int32} (there : s.object o = some b) (content : b.content = some h)
    (counter : s.heap.counters[h]? = some (some n)) (negative : n.toInt < 0) : ¬ Good s := by
  intro hgood
  obtain ⟨-, v, hv⟩ := hgood.points o b h there content
  obtain ⟨-, m, hm, hcount⟩ := hgood.counted h v hv
  obtain rfl : n = m := Option.some.inj (Option.some.inj (counter.symm.trans hm))
  omega

theorem full_eq {objects : List (Option Any)} (hfull : full objects p = true) :
    ∃ b h, objects[p]? = some (some b) ∧ b.content = some h ∧ sharers objects h + 1 = 2 ^ 31 := by
  unfold full at hfull
  cases hh : (objects[p]?.join).bind Any.content with
  | none =>
    rw [hh] at hfull
    cases hfull
  | some h =>
    obtain ⟨b, hb, hcontent⟩ := Option.bind_eq_some_iff.mp hh
    rw [hh] at hfull
    exact ⟨b, h, Option.join_eq_some_iff.mp hb, hcontent, of_decide_eq_true hfull⟩

/-- A call that overflows has a meaning as well, but leaves a counter that is wrong. -/
theorem Sound.wraps (hs : Sound s) {op : Op V} (hallowed : s.allowed op = true)
    (hfull : s.overflows op = true) : ∃ s', s.call op = some s' ∧ ¬ Good s' := by
  cases op with
  | empty | value v | move o | destroy o => cases hfull
  | copy o =>
    obtain ⟨b, h, hthere, hcontent, hcount⟩ := full_eq hfull
    have hb := object_eq.mpr hthere
    obtain ⟨heap, n, hshare, hn, hnegative⟩ :=
      hs.balanced.share_wraps (hs.paired o b hb) hcontent hcount ⟨none, none⟩
    refine ⟨⟨s.objects ++ [some b], heap⟩, ?_, ?_⟩
    · simp only [Objects.call, hb, hshare, Option.bind_eq_bind, Option.bind_some]
      rfl
    · refine not_good (o := s.objects.length) (b := b) (object_eq.mpr ?_) hcontent hn hnegative
      exact List.getElem?_concat_length
  | assign o p =>
    obtain ⟨hop, hfull⟩ : o ≠ p ∧ full (s.objects.set o none) p = true := by
      simpa [overflows] using hfull
    obtain ⟨b, h, hrest, hcontent, hcount⟩ := full_eq hfull
    obtain ⟨a, ha⟩ := Option.isSome_iff_exists.mp ((Bool.and_eq_true _ _).mp hallowed).1
    have hthere := object_eq.mp ha
    have hb : s.object p = some b := by
      rw [List.getElem?_set, if_neg hop] at hrest
      exact object_eq.mpr hrest
    have hbefore := hs.balanced
    rw [sharers_of_object hthere] at hbefore
    obtain ⟨heap, hdestroy, hmiddle⟩ := hbefore.destroy (hs.paired o a ha)
    obtain ⟨heap', n, hshare, hn, hnegative⟩ :=
      hmiddle.share_wraps (hs.paired p b hb) hcontent hcount { a with content := none }
    refine ⟨⟨s.objects.set o (some b), heap'⟩, ?_, ?_⟩
    · simp only [Objects.call, if_neg hop, ha, hb, hdestroy, hshare, Option.bind_eq_bind,
        Option.bind_some]
      rfl
    · refine not_good (o := o) (b := b) (object_eq.mpr ?_) hcontent hn hnegative
      exact List.getElem?_set_self (List.getElem?_eq_some_iff.mp hthere).1

theorem Sound.good (hs : Sound s) : Good s where
  points := fun o a h ho hh => by
    have hpos := sharers_pos (object_eq.mp ho) hh
    exact ⟨hs.paired o a ho h hh, ((hs.balanced.counted h).live hpos).1⟩
  counted := fun h v hv => by
    have hc := hs.balanced.counted h
    have hpos : 0 < sharers s.objects h := by
      by_contra hzero
      have hgone := (hc.gone (List.getElem?_eq_some_iff.mp hv).1 (by omega)).1
      cases hv.symm.trans hgone
    exact ⟨hpos, (hc.live hpos).2⟩
  once := fun h => (hs.balanced.counted h).once
  safe := fun op hallowed => by
    cases hfull : s.overflows op with
    | true =>
      obtain ⟨s', hs', -⟩ := hs.wraps hallowed hfull
      rw [hs']
      rfl
    | false =>
      obtain ⟨s', hs', -⟩ := hs.call hallowed hfull
      rw [hs']
      rfl

theorem Sound.new : Sound (V := V) new := by
  refine ⟨⟨rfl, fun h => ⟨fun _ => rfl, nofun, nofun, ?_⟩⟩, nofun⟩
  simp [Objects.new]

/-- The counters are right in every state of a run if and only if no holder of the run ever comes to
be shared by 2^31 objects. -/
theorem counted_iff (ops : List (Op V)) (run : Machine.exec step new ops = some s) :
    (∀ before after u, ops = before ++ after → Machine.exec step new before = some u → Good u) ↔
      Machine.tally step overflows (new (V := V)) ops = 0 := by
  refine Machine.always_iff (I := Sound) (fun u hu => hu.good) (fun u op v hu hroom hstep => ?_)
    (fun u op v hu hfull hstep => ?_) .new ops run
  · unfold step at hstep
    split_ifs at hstep with hallowed
    obtain ⟨w, hw, hsound⟩ := hu.call hallowed hroom
    obtain rfl := Option.some.inj (hw.symm.trans hstep)
    exact hsound
  · unfold step at hstep
    split_ifs at hstep with hallowed
    obtain ⟨w, hw, hbad⟩ := hu.wraps hallowed hfull
    obtain rfl := Option.some.inj (hw.symm.trans hstep)
    exact hbad

def shareOps : List (Op ℕ) :=
  [.value 7, .copy 0, .copy 1, .empty, .assign 1 3, .copy 1, .assign 1 0, .assign 1 1, .move 0,
    .destroy 1, .destroy 2, .destroy 5]

theorem counted_iff_share : ∃ s, Machine.exec step new shareOps = some s ∧ Good s ∧
    s.heap.deleted = [.holder 0, .counter 0] := by
  have h : (Machine.exec step new shareOps).map (·.heap.deleted) =
      some [.holder 0, .counter 0] := by decide
  obtain ⟨s, hs, hdeleted⟩ := Option.map_eq_some_iff.mp h
  have hgood := (counted_iff shareOps hs).mpr (by decide) shareOps [] s
    (List.append_nil _).symm hs
  exact ⟨s, hs, hgood, hdeleted⟩

def copyOps (n : ℕ) : List (Op ℕ) := .value 7 :: .replicate n (.copy 0)

theorem exec_copyOps (n : ℕ) : Machine.exec step new (copyOps n) =
    some ⟨.replicate (n + 1) (some ⟨some 0, some 0⟩), ⟨[some 7], [some (.ofNat (n + 1))], []⟩⟩ := by
  induction n with
  | zero => rfl
  | succ n ih =>
    have hops : copyOps (n + 1) = copyOps n ++ [.copy 0] := by
      rw [copyOps, List.replicate_succ', copyOps, List.cons_append]
    have hstep (m : Int32) : Machine.exec step (σ := Objects ℕ)
        ⟨.replicate (n + 1) (some ⟨some 0, some 0⟩), ⟨[some 7], [some m], []⟩⟩ [.copy 0] =
          some ⟨.replicate (n + 1) (some ⟨some 0, some 0⟩) ++ [some ⟨some 0, some 0⟩],
            ⟨[some 7], [some (m + 1)], []⟩⟩ := rfl
    rw [hops, Machine.exec_append, ih, List.replicate_succ' (n := n + 1), Option.bind_some, hstep,
      Int32.ofNat_add (n + 1) 1]
    rfl

theorem counter_wraps : ∃ s, Machine.exec step new (copyOps (2 ^ 31 - 1)) = some s ∧ ¬ Good s := by
  refine ⟨_, exec_copyOps (2 ^ 31 - 1), ?_⟩
  refine not_good (o := 0) (b := ⟨some 0, some 0⟩) (n := .ofNat (2 ^ 31 - 1 + 1))
    (object_eq.mpr ?_) rfl rfl (by decide)
  exact List.getElem?_replicate_of_lt (by decide)

end Objects

end Hwnet.AnyObject
