import Hwnet.LinkedList
import Hwnet.SendContextPool
import Mathlib.Data.List.Perm.Subperm

set_option autoImplicit false

/-!
# The lists of send contexts

A `linklist` links the contexts to be sent through the contexts themselves and keeps the last one.
Two of them, over the memory of the pool, are two sequences of contexts.
-/
namespace Hwnet.TCPSocket

open LinkedList

namespace SendContextPool

def next (p : SendContextPool) (s : ContextId) : Option ContextId := (p.items s).next

def setNext (p : SendContextPool) (s : ContextId) (next : Option ContextId) : SendContextPool :=
  { p with items := Function.update p.items s { p.items s with next } }

end SendContextPool

structure Linklist where
  head : Option ContextId
  tail : Option ContextId
  deriving DecidableEq, Repr

namespace Linklist

def new : Linklist := ⟨none, none⟩

def empty (l : Linklist) : Bool := l.head.isNone

def popFront (l : Linklist) (p : SendContextPool) : SendContextPool × Linklist :=
  match l.head with
  | none => (p, l)
  | some s =>
    let head := p.next s
    (p.put s, ⟨head, if head = none then none else l.tail⟩)

/-- `tail->next` of a null pointer has no meaning. -/
def pushBack (l : Linklist) (p : SendContextPool) (s : ContextId) :
    Option (SendContextPool × Linklist) :=
  match l.head with
  | none => some (p, ⟨some s, some s⟩)
  | some _ => l.tail.map fun tail => (p.setNext tail (some s), ⟨l.head, some s⟩)

def clearLoop : ℕ → SendContextPool → Option ContextId → Option SendContextPool
  | _, p, none => some p
  | 0, _, some _ => none
  | fuel + 1, p, some c =>
    let cur := p.next c
    clearLoop fuel (p.put c) cur

def clear (l : Linklist) (p : SendContextPool) : Option (SendContextPool × Linklist) :=
  if l.head = none then some (p, l)
  else (clearLoop p.allocated p l.head).map (·, new)

def addFront (l : Linklist) (p : SendContextPool) (other : Linklist) :
    Option (SendContextPool × Linklist × Linklist) :=
  if other.empty then some (p, l, other)
  else
    match l.head with
    | none => some (p, ⟨other.head, other.tail⟩, new)
    | some _ => other.tail.map fun tail => (p.setNext tail l.head, ⟨other.head, l.tail⟩, new)

end Linklist

/-! ## Two lists -/

structure Linklists where
  pool : SendContextPool
  lists : Fin 2 → Linklist
  fresh : List ContextId

inductive ListCall where
  | get (fd : ℕ) (buff : Buffer) (len : ℕ)
  | put (s : ContextId)
  | pushBack (i : Fin 2) (s : ContextId)
  | popFront (i : Fin 2)
  | clear (i : Fin 2)
  | addFront (i : Fin 2)
  deriving DecidableEq, Repr

/-- Only a fresh context is put on a list, or put back from elsewhere. -/
def ListCall.allowed (s : Linklists) : ListCall → Bool
  | .put c | .pushBack _ c => c ∈ s.fresh
  | .get .. | .popFront _ | .clear _ | .addFront _ => true

def ListCall.apply (q : Fin 2 → List ContextId) : ListCall → Fin 2 → List ContextId
  | .get .. | .put _ => q
  | .pushBack i c => Function.update q i (q i ++ [c])
  | .popFront i => Function.update q i (q i).tail
  | .clear i => Function.update q i []
  | .addFront i => Function.update (Function.update q i (q i.rev ++ q i)) i.rev []

namespace Linklists

def new : Linklists := ⟨.new, fun _ => .new, []⟩

def setList (s : Linklists) (i : Fin 2) (r : SendContextPool × Linklist) : Linklists :=
  { s with pool := r.1, lists := Function.update s.lists i r.2 }

def call (s : Linklists) : ListCall → Option Linklists
  | .get fd buff len =>
    -- `get` returns the context it puts on `out`
    let pool := s.pool.get fd buff len
    some { s with pool, fresh := pool.out.head?.toList ++ s.fresh }
  | .put c => some { s with pool := s.pool.put c, fresh := s.fresh.erase c }
  | .pushBack i c =>
    ((s.lists i).pushBack s.pool c).map fun r => { s.setList i r with fresh := s.fresh.erase c }
  | .popFront i => some (s.setList i ((s.lists i).popFront s.pool))
  | .clear i => ((s.lists i).clear s.pool).map (s.setList i)
  | .addFront i =>
    ((s.lists i).addFront s.pool (s.lists i.rev)).map fun (pool, l, other) =>
      (s.setList i (pool, l)).setList i.rev (pool, other)

def step (s : Linklists) (c : ListCall) : Option Linklists :=
  if c.allowed s then s.call c else none

end Linklists

/-! ## What the pool leaves alone -/

namespace SendContextPool

structure Pooled (p : SendContextPool) : Prop where
  head : ∀ index s, (p.pools index).head = some s →
    s < p.allocated ∧ (p.items s).poolIndex = index ∧ s ∉ p.out ∧ p.next s = none
  nodup : p.out.Nodup
  allocated : ∀ s ∈ p.out, s < p.allocated

variable {p : SendContextPool} {s t : ContextId}

theorem Pooled.new : Pooled new := ⟨nofun, .nil, nofun⟩

theorem next_of_items {p' : SendContextPool} {item : ContextItem}
    (items : p'.items = Function.update p.items s item) :
    p'.next = Function.update p.next s item.next := by
  funext t
  by_cases hts : t = s
  · simp [hts, next, items]
  · simp [hts, next, items]

theorem poolIndex_of_items {p' : SendContextPool} {item : ContextItem}
    (items : p'.items = Function.update p.items s item) {t : ContextId} (ne : t ≠ s) :
    (p'.items t).poolIndex = (p.items t).poolIndex := by
  rw [items, Function.update_of_ne ne]

@[simp] theorem setNext_next (p : SendContextPool) (s : ContextId) (x : Option ContextId) :
    (p.setNext s x).next = Function.update p.next s x := by
  have hitems : (p.setNext s x).items = Function.update p.items s { p.items s with next := x } :=
    rfl
  exact next_of_items hitems

theorem Pooled.setNext (h : Pooled p) (user : s ∈ p.out) (x : Option ContextId) :
    Pooled (p.setNext s x) := by
  refine ⟨fun index t ht => ?_, h.nodup, h.allocated⟩
  obtain ⟨hlt, hindex, hout, hnext⟩ := h.head index t ht
  have hts : t ≠ s := by
    rintro rfl
    exact hout user
  refine ⟨hlt, (poolIndex_of_items rfl hts).trans hindex, hout, ?_⟩
  rw [setNext_next, Function.update_of_ne hts]
  exact hnext

/-- A context that was not in use is handed out, and ends the list that it is to be put on. -/
theorem Pooled.get (h : Pooled p) (fd : ℕ) (buff : Buffer) (len : ℕ) :
    Pooled (p.get fd buff len) ∧ ∃ c, (p.get fd buff len).out = c :: p.out ∧ c ∉ p.out ∧
      (p.get fd buff len).next = Function.update p.next c none := by
  rw [get_moves]
  cases hhead : (p.pools (fd % poolCount)).head with
  | none =>
    have hnew : p.allocated ∉ p.out := fun hmem => Nat.lt_irrefl _ (h.allocated _ hmem)
    have hitems : (p.allocate ⟨some (getSendContext buff len), none, fd % poolCount⟩).items =
        Function.update p.items p.allocated _ := rfl
    refine ⟨⟨fun index t ht => ?_, List.nodup_cons.mpr ⟨hnew, h.nodup⟩, fun t ht => ?_⟩,
      p.allocated, rfl, hnew, next_of_items hitems⟩
    · obtain ⟨hlt, hindex, hout, hnext⟩ := h.head index t ht
      have hne : t ≠ p.allocated := Nat.ne_of_lt hlt
      refine ⟨Nat.lt_succ_of_lt hlt, (poolIndex_of_items hitems hne).trans hindex,
        List.not_mem_cons_of_ne_of_not_mem hne hout, ?_⟩
      rw [next_of_items hitems, Function.update_of_ne hne]
      exact hnext
    · rcases List.mem_cons.mp ht with rfl | ht
      · exact Nat.lt_succ_self _
      · exact Nat.lt_succ_of_lt (h.allocated t ht)
  | some s =>
    obtain ⟨hlt, hindex, hout, hnext⟩ := h.head _ s hhead
    let item : ContextItem := ⟨some (getSendContext buff len), none, fd % poolCount⟩
    have hitems : (p.take s item).items = Function.update p.items s item := rfl
    refine ⟨⟨fun index t ht => ?_, List.nodup_cons.mpr ⟨hout, h.nodup⟩, fun t ht => ?_⟩,
      s, rfl, hout, next_of_items hitems⟩
    · have hin : index ≠ fd % poolCount := by
        rintro rfl
        have hnone : (p.take s item).pools (fd % poolCount) =
            ⟨(p.pools (fd % poolCount)).count - 1, p.next s⟩ := Function.update_self _ _ _
        rw [hnone, hnext] at ht
        cases ht
      have hsame : (p.take s item).pools index = p.pools index := Function.update_of_ne hin _ _
      rw [hsame] at ht
      obtain ⟨hlt', hindex', hout', hnext'⟩ := h.head index t ht
      have hne : t ≠ s := by
        rintro rfl
        exact hin (hindex'.symm.trans hindex)
      refine ⟨hlt', (poolIndex_of_items hitems hne).trans hindex',
        List.not_mem_cons_of_ne_of_not_mem hne hout', ?_⟩
      rw [next_of_items hitems, Function.update_of_ne hne]
      exact hnext'
    · rcases List.mem_cons.mp ht with rfl | ht
      · exact hlt
      · exact h.allocated t ht

theorem Pooled.put (h : Pooled p) (user : s ∈ p.out) :
    Pooled (p.put s) ∧ (p.put s).out = p.out.erase s ∧
      (p.put s).next = Function.update p.next s none := by
  have hgone : s ∉ p.out.erase s := h.nodup.not_mem_erase
  have hcleared {p' : SendContextPool} (items : p'.items =
        Function.update p.items s ⟨none, none, (p.items s).poolIndex⟩) :
      p'.next = Function.update p.next s none := next_of_items items
  have hheads {p' : SendContextPool} (items : p'.items =
        Function.update p.items s ⟨none, none, (p.items s).poolIndex⟩)
      (out : p'.out = p.out.erase s) {index : ℕ} {t : ContextId}
      (ht : (p.pools index).head = some t) : t < p.allocated ∧ (p'.items t).poolIndex = index ∧
        t ∉ p'.out ∧ p'.next t = none := by
    obtain ⟨hlt, hindex, hout, hnext⟩ := h.head index t ht
    have hne : t ≠ s := by
      rintro rfl
      exact hout user
    refine ⟨hlt, (poolIndex_of_items items hne).trans hindex, ?_, ?_⟩
    · rw [out]
      exact fun hmem => hout (List.mem_of_mem_erase hmem)
    · rw [hcleared items, Function.update_of_ne hne]
      exact hnext
  rw [put_moves s fun head hhead => (h.head _ head hhead).2.2.2]
  split
  · let item : ContextItem := ⟨none, none, (p.items s).poolIndex⟩
    refine ⟨⟨fun index t ht => ?_, h.nodup.erase s, fun t ht =>
      h.allocated t (List.mem_of_mem_erase ht)⟩, rfl, hcleared rfl⟩
    by_cases hin : index = (p.items s).poolIndex
    · have hhead : (p.keep s item).pools (p.items s).poolIndex =
          ⟨(p.pools (p.items s).poolIndex).count + 1, some s⟩ := Function.update_self _ _ _
      rw [hin, hhead] at ht
      cases ht
      have hs : (p.keep s item).items s = item := Function.update_self _ _ _
      exact ⟨h.allocated s user, by rw [hs, hin], hgone, by rw [hcleared rfl, Function.update_self]⟩
    · have hsame : (p.keep s item).pools index = p.pools index := Function.update_of_ne hin _ _
      rw [hsame] at ht
      exact hheads rfl rfl ht
  · exact ⟨⟨fun index t ht => hheads rfl rfl ht, h.nodup.erase s, fun t ht =>
      h.allocated t (List.mem_of_mem_erase ht)⟩, rfl, hcleared rfl⟩

end SendContextPool

/-! ## The lists as sequences -/

namespace Linklists

structure Represents (s : Linklists) (q : Fin 2 → List ContextId) : Prop where
  pooled : s.pool.Pooled
  chain : ∀ i, Chain s.pool.next (s.lists i).head (q i)
  tail : ∀ i, (s.lists i).tail = (q i).getLast?
  apart : ∀ i j, i ≠ j → ∀ c ∈ q i, c ∉ q j
  used : ∀ i, ∀ c ∈ q i, c ∈ s.pool.out ∧ c ∉ s.fresh
  fresh : ∀ c ∈ s.fresh, c ∈ s.pool.out ∧ s.pool.next c = none
  nodup : s.fresh.Nodup

structure Chained (s : Linklists) (q : Fin 2 → List ContextId) : Prop where
  chain : ∀ i, Chain s.pool.next (s.lists i).head (q i)
  acyclic : ∀ i, (q i).Nodup
  tail : ∀ i, (s.lists i).tail = (q i).getLast?
  last : ∀ i t, (s.lists i).tail = some t → s.pool.next t = none
  null : ∀ i, (s.lists i).head = none ↔ (s.lists i).tail = none
  apart : (q 0).Disjoint (q 1)

variable {s s' : Linklists} {q : Fin 2 → List ContextId} {i : Fin 2} {c t : ContextId}

theorem Represents.chained (h : Represents s q) : Chained s q where
  chain := h.chain
  acyclic := fun i => (h.chain i).nodup
  tail := h.tail
  last := fun i t ht => (h.chain i).last (h.tail i ▸ ht)
  null := fun i => by
    rw [(h.chain i).head_eq, h.tail i, List.head?_eq_none_iff, List.getLast?_eq_none_iff]
  apart := fun c hc hc' => h.apart 0 1 (by decide) c hc hc'

theorem Represents.new : Represents new fun _ => [] :=
  ⟨.new, fun _ => rfl, fun _ => rfl, nofun, nofun, nofun, .nil⟩

theorem Represents.length_le (h : Represents s q) (i : Fin 2) :
    (q i).length ≤ s.pool.allocated := by
  have hsub : q i ⊆ List.range s.pool.allocated := fun c hc =>
    List.mem_range.mpr (h.pooled.allocated c (h.used i c hc).1)
  have hle := (List.subperm_of_subset (h.chain i).nodup hsub).length_le
  rwa [List.length_range] at hle

/-- A call that touches nothing but list `i`, to which a fresh context may have come. -/
theorem Represents.update (h : Represents s q) {p : SendContextPool} {l : Linklist}
    {k fresh : List ContextId} (pooled : p.Pooled) (chain : Chain p.next l.head k)
    (tail : l.tail = k.getLast?) (next : ∀ c, c ∉ q i → c ∉ k → p.next c = s.pool.next c)
    (out : ∀ c, c ∈ s.pool.out → c ∉ q i → c ∈ p.out)
    (members : ∀ c ∈ k, c ∈ p.out ∧ c ∉ fresh ∧ (c ∈ q i ∨ c ∈ s.fresh))
    (sub : ∀ c ∈ fresh, c ∈ s.fresh) (nodup : fresh.Nodup) :
    Represents { pool := p, lists := Function.update s.lists i l, fresh }
      (Function.update q i k) := by
  -- a context of the other list is neither on this one nor fresh
  have haside {j : Fin 2} (hj : j ≠ i) {c : ContextId} (hc : c ∈ q j) : c ∉ q i ∧ c ∉ k := by
    have hi : c ∉ q i := h.apart j i hj c hc
    refine ⟨hi, fun hk => ?_⟩
    rcases (members c hk).2.2 with hi' | hfresh
    · exact hi hi'
    · exact (h.used j c hc).2 hfresh
  refine ⟨pooled, fun j => ?_, fun j => ?_, fun j m hne c hc => ?_, fun j c hc => ?_,
    fun c hc => ?_, nodup⟩
  · by_cases hj : j = i
    · subst hj
      simpa using chain
    · simpa [hj] using (h.chain j).frame fun c hc => next c (haside hj hc).1 (haside hj hc).2
  · by_cases hj : j = i
    · subst hj
      simpa using tail
    · simpa [hj] using h.tail j
  · by_cases hj : j = i
    · subst hj
      have hm : m ≠ j := Ne.symm hne
      rw [Function.update_self] at hc
      rw [Function.update_of_ne hm]
      exact fun hmem => (haside hm hmem).2 hc
    · rw [Function.update_of_ne hj] at hc
      by_cases hm : m = i
      · rw [hm, Function.update_self]
        exact (haside hj hc).2
      · rw [Function.update_of_ne hm]
        exact h.apart j m hne c hc
  · by_cases hj : j = i
    · subst hj
      rw [Function.update_self] at hc
      exact ⟨(members c hc).1, (members c hc).2.1⟩
    · rw [Function.update_of_ne hj] at hc
      obtain ⟨hout, hfresh⟩ := h.used j c hc
      exact ⟨out c hout (haside hj hc).1, fun hmem => hfresh (sub c hmem)⟩
  · obtain ⟨hout, hnext⟩ := h.fresh c (sub c hc)
    have hi : c ∉ q i := fun hmem => (h.used i c hmem).2 (sub c hc)
    have hk : c ∉ k := fun hmem => (members c hmem).2.1 hc
    exact ⟨out c hout hi, (next c hi hk).trans hnext⟩

/-! ## The calls -/

theorem Represents.get (h : Represents s q) (fd : ℕ) (buff : Buffer) (len : ℕ) :
    ∃ s', s.call (.get fd buff len) = some s' ∧ Represents s' q := by
  obtain ⟨hpooled, c, hout, hnew, hnext⟩ := h.pooled.get fd buff len
  have hne {d : ContextId} (hd : d ∈ s.pool.out) : d ≠ c := by
    rintro rfl
    exact hnew hd
  refine ⟨_, rfl, hpooled, fun i => ?_, h.tail, h.apart, fun i d hd => ?_, fun d hd => ?_, ?_⟩
  · show Chain (s.pool.get fd buff len).next _ _
    rw [hnext]
    exact (h.chain i).update (fun hc => hnew (h.used i c hc).1) none
  · obtain ⟨hd', hfresh⟩ := h.used i d hd
    refine ⟨?_, ?_⟩
    · exact hout ▸ List.mem_cons_of_mem c hd'
    · show d ∉ (s.pool.get fd buff len).out.head?.toList ++ s.fresh
      rw [hout]
      simpa using ⟨hne hd', hfresh⟩
  · have hd : d ∈ (s.pool.get fd buff len).out.head?.toList ++ s.fresh := hd
    rw [hout] at hd
    show d ∈ (s.pool.get fd buff len).out ∧ (s.pool.get fd buff len).next d = none
    rw [hout, hnext]
    rcases List.mem_cons.mp hd with rfl | hd
    · exact ⟨List.mem_cons_self, Function.update_self _ _ _⟩
    · obtain ⟨hd', hlink⟩ := h.fresh d hd
      exact ⟨List.mem_cons_of_mem c hd', by rw [Function.update_of_ne (hne hd'), hlink]⟩
  · show ((s.pool.get fd buff len).out.head?.toList ++ s.fresh).Nodup
    rw [hout]
    exact List.nodup_cons.mpr ⟨fun hc => hnew (h.fresh c hc).1, h.nodup⟩

theorem Represents.put (h : Represents s q) (fresh : c ∈ s.fresh) :
    ∃ s', s.call (.put c) = some s' ∧ Represents s' q := by
  obtain ⟨hpooled, hout, hnext⟩ := h.pooled.put (h.fresh c fresh).1
  refine ⟨_, rfl, hpooled, fun i => ?_, h.tail, h.apart, fun i d hd => ?_, fun d hd => ?_,
    h.nodup.erase c⟩
  · show Chain (s.pool.put c).next _ _
    rw [hnext]
    exact (h.chain i).update (fun hc => (h.used i c hc).2 fresh) none
  · obtain ⟨hd', hfresh⟩ := h.used i d hd
    have hdc : d ≠ c := by
      rintro rfl
      exact hfresh fresh
    refine ⟨?_, fun hmem => hfresh (List.mem_of_mem_erase hmem)⟩
    rw [hout]
    exact (List.mem_erase_of_ne hdc).mpr hd'
  · obtain ⟨hdc, hd⟩ := (h.nodup.mem_erase_iff).mp hd
    obtain ⟨hd', hlink⟩ := h.fresh d hd
    show d ∈ (s.pool.put c).out ∧ (s.pool.put c).next d = none
    rw [hout, hnext, Function.update_of_ne hdc]
    exact ⟨(List.mem_erase_of_ne hdc).mpr hd', hlink⟩

theorem Represents.tail_eq (h : Represents s q) (some_ : (s.lists i).head ≠ none) :
    ∃ t, (s.lists i).tail = some t ∧ (q i).getLast? = some t ∧ t ∈ q i := by
  have hne : q i ≠ [] := by
    rintro hnil
    apply some_
    rw [(h.chain i).head_eq, hnil]
    rfl
  refine ⟨(q i).getLast hne, ?_, List.getLast?_eq_some_getLast hne, List.getLast_mem hne⟩
  rw [h.tail i, List.getLast?_eq_some_getLast hne]

theorem Represents.empty (h : Represents s q) (none_ : (s.lists i).head = none) : q i = [] := by
  rw [← List.head?_eq_none_iff, ← (h.chain i).head_eq]
  exact none_

theorem Represents.pushBack (h : Represents s q) (i : Fin 2) (fresh : c ∈ s.fresh) :
    ∃ s', s.call (.pushBack i c) = some s' ∧
      Represents s' (Function.update q i (q i ++ [c])) := by
  obtain ⟨hout, hlink⟩ := h.fresh c fresh
  have hnew (j : Fin 2) : c ∉ q j := fun hc => (h.used j c hc).2 fresh
  have hmembers : ∀ d ∈ q i ++ [c], d ∈ s.pool.out ∧ d ∉ s.fresh.erase c ∧
      (d ∈ q i ∨ d ∈ s.fresh) := by
    intro d hd
    rcases List.mem_append.mp hd with hd | hd
    · obtain ⟨hd', hfresh⟩ := h.used i d hd
      exact ⟨hd', fun hmem => hfresh (List.mem_of_mem_erase hmem), .inl hd⟩
    · rw [List.mem_singleton.mp hd]
      exact ⟨hout, h.nodup.not_mem_erase, .inr fresh⟩
  have hsub : ∀ d ∈ s.fresh.erase c, d ∈ s.fresh := fun d => List.mem_of_mem_erase
  simp only [call, Linklist.pushBack]
  cases hhead : (s.lists i).head with
  | none =>
    have hnil := h.empty hhead
    refine ⟨_, rfl, h.update h.pooled ?_ ?_ (fun _ _ _ => rfl) (fun _ hd _ => hd) hmembers hsub
      (h.nodup.erase c)⟩
    · rw [hnil]
      exact ⟨rfl, hlink⟩
    · rw [hnil]
      rfl
  | some a =>
    obtain ⟨t, htail, hlast, ht⟩ := h.tail_eq (i := i) (by rw [hhead]; nofun)
    have hct : t ≠ c := by
      rintro rfl
      exact hnew i ht
    rw [htail]
    refine ⟨_, rfl, h.update (p := s.pool.setNext t (some c)) (l := ⟨some a, some c⟩)
      (h.pooled.setNext (h.used i t ht).1 _) ?_ ?_ (fun d hd _ => ?_) (fun _ hd _ => hd) hmembers
      hsub (h.nodup.erase c)⟩
    · rw [SendContextPool.setNext_next, ← hhead]
      have hone : Chain s.pool.next (some c) [c] := ⟨rfl, hlink⟩
      exact (h.chain i).append hone hlast (by simpa using hct)
    · rw [List.getLast?_concat]
    · rw [SendContextPool.setNext_next, Function.update_of_ne (ne_of_mem_of_not_mem ht hd).symm]

theorem Represents.popFront (h : Represents s q) (i : Fin 2) :
    ∃ s', s.call (.popFront i) = some s' ∧ Represents s' (Function.update q i (q i).tail) := by
  refine ⟨_, rfl, ?_⟩
  cases hq : q i with
  | nil =>
    have hhead : (s.lists i).head = none := by rw [(h.chain i).head_eq, hq]; rfl
    have hsame : (s.lists i).popFront s.pool = (s.pool, s.lists i) := by
      simp only [Linklist.popFront, hhead]
    rw [hsame, ← hq]
    refine h.update h.pooled ?_ ?_ (fun _ _ _ => rfl) (fun _ hd _ => hd) (fun d hd => ?_)
      (fun _ => id) h.nodup
    · rw [hq]
      exact hhead
    · rw [h.tail i, hq]
      rfl
    · rw [hq] at hd
      cases hd
  | cons c k =>
    have hchain : Chain s.pool.next (s.lists i).head (c :: k) := hq ▸ h.chain i
    have hc : c ∈ q i := by rw [hq]; exact List.mem_cons_self
    obtain ⟨hck, hk⟩ := List.nodup_cons.mp hchain.nodup
    obtain ⟨hpooled, hout, hnext⟩ := h.pooled.put (h.used i c hc).1
    have hkept {d : ContextId} (hd : d ∈ s.pool.out) (hdc : d ≠ c) : d ∈ (s.pool.put c).out := by
      rw [hout]
      exact (List.mem_erase_of_ne hdc).mpr hd
    have hpop : (s.lists i).popFront s.pool = (s.pool.put c, ⟨s.pool.next c,
        if s.pool.next c = none then none else (s.lists i).tail⟩) := by
      simp only [Linklist.popFront, hchain.1]
    rw [hpop, List.tail_cons]
    refine h.update hpooled ?_ ?_ (fun d hd _ => ?_) (fun d hd hdq => ?_) (fun d hd => ?_)
      (fun _ => id) h.nodup
    · rw [hnext]
      exact hchain.2.update hck none
    · show (if s.pool.next c = none then none else (s.lists i).tail) = k.getLast?
      rw [h.tail i, hq]
      cases k with
      | nil => exact if_pos hchain.2
      | cons d k =>
        rw [hchain.2.1, if_neg (by simp), List.getLast?_cons_cons]
    · rw [hnext, Function.update_of_ne (ne_of_mem_of_not_mem hc hd).symm]
    · exact hkept hd (ne_of_mem_of_not_mem hc hdq).symm
    · have hdq : d ∈ q i := by rw [hq]; exact List.mem_cons_of_mem c hd
      obtain ⟨hd', hfresh⟩ := h.used i d hdq
      exact ⟨hkept hd' (ne_of_mem_of_not_mem hd hck), hfresh, .inl hdq⟩

theorem Linklist.clearLoop_spec {p : SendContextPool} {head : Option ContextId}
    {k : List ContextId} (fuel : ℕ) (h : p.Pooled) (chain : Chain p.next head k)
    (used : ∀ c ∈ k, c ∈ p.out) (enough : k.length ≤ fuel) :
    ∃ p', Linklist.clearLoop fuel p head = some p' ∧ p'.Pooled ∧
      ∀ c, c ∉ k → p'.next c = p.next c ∧ (c ∈ p.out → c ∈ p'.out) := by
  induction k generalizing p head fuel with
  | nil =>
    obtain rfl : head = none := chain
    refine ⟨p, ?_, h, fun c _ => ⟨rfl, id⟩⟩
    cases fuel <;> rfl
  | cons c k ih =>
    have hck : c ∉ k := (List.nodup_cons.mp chain.nodup).1
    obtain ⟨rfl, hrest⟩ := chain
    cases fuel with
    | zero => cases enough
    | succ fuel =>
      obtain ⟨hpooled, hout, hnext⟩ := h.put (used c List.mem_cons_self)
      have hkept {d : ContextId} (hd : d ∈ p.out) (hdc : d ≠ c) : d ∈ (p.put c).out := by
        rw [hout]
        exact (List.mem_erase_of_ne hdc).mpr hd
      have hchain : Chain (p.put c).next (p.next c) k := by
        rw [hnext]
        exact hrest.update hck none
      obtain ⟨p', hp', hpooled', hothers⟩ := ih fuel hpooled hchain
        (fun d hd => hkept (used d (List.mem_cons_of_mem c hd)) (ne_of_mem_of_not_mem hd hck))
        (Nat.le_of_succ_le_succ enough)
      refine ⟨p', hp', hpooled', fun d hd => ?_⟩
      obtain ⟨hdc, hdk⟩ := List.ne_and_not_mem_of_not_mem_cons hd
      obtain ⟨hsame, hstays⟩ := hothers d hdk
      refine ⟨?_, fun hin => hstays (hkept hin hdc)⟩
      rw [hsame, hnext, Function.update_of_ne hdc]

theorem Represents.clear (h : Represents s q) (i : Fin 2) :
    ∃ s', s.call (.clear i) = some s' ∧ Represents s' (Function.update q i []) := by
  simp only [call, Linklist.clear]
  split
  · rename_i hhead
    have hnil := h.empty hhead
    refine ⟨_, rfl, h.update h.pooled ?_ ?_ (fun _ _ _ => rfl) (fun _ hd _ => hd) nofun
      (fun _ => id) h.nodup⟩
    · exact hhead
    · rw [h.tail i, hnil]
  · obtain ⟨p, hp, hpooled, hothers⟩ := Linklist.clearLoop_spec s.pool.allocated h.pooled
      (h.chain i) (fun c hc => (h.used i c hc).1) (h.length_le i)
    rw [hp]
    exact ⟨_, rfl, h.update (p := p) (l := .new) hpooled rfl rfl (fun d hd _ => (hothers d hd).1)
      (fun d hd hdq => (hothers d hdq).2 hd) nofun (fun _ => id) h.nodup⟩

theorem ne_rev (i : Fin 2) : i ≠ i.rev := by decide +revert

theorem eq_or_eq_rev (i j : Fin 2) : j = i ∨ j = i.rev := by decide +revert

/-- Both lists at once: what was on the other one comes first on this one. -/
theorem Represents.joined (h : Represents s q) (i : Fin 2) {p : SendContextPool} {l : Linklist}
    (pooled : p.Pooled) (chain : Chain p.next l.head (q i.rev ++ q i))
    (tail : l.tail = (q i.rev ++ q i).getLast?) (out : p.out = s.pool.out)
    (fresh : ∀ c ∈ s.fresh, p.next c = none) :
    Represents ((s.setList i (p, l)).setList i.rev (p, .new))
      (Function.update (Function.update q i (q i.rev ++ q i)) i.rev []) := by
  have hrev := ne_rev i
  have hcases := eq_or_eq_rev i
  have hthis : Function.update (Function.update q i (q i.rev ++ q i)) i.rev [] i =
      q i.rev ++ q i := by
    rw [Function.update_of_ne hrev, Function.update_self]
  have hthat : Function.update (Function.update q i (q i.rev ++ q i)) i.rev [] i.rev = [] :=
    Function.update_self _ _ _
  have hlist : ((s.setList i (p, l)).setList i.rev (p, .new)).lists i = l := by
    simp [setList, Function.update_of_ne hrev]
  have hlist' : ((s.setList i (p, l)).setList i.rev (p, .new)).lists i.rev = .new := by
    simp [setList]
  refine ⟨pooled, fun j => ?_, fun j => ?_, fun j m hne c hc => ?_, fun j c hc => ?_,
    fun c hc => ⟨?_, fresh c hc⟩, h.nodup⟩
  · rcases hcases j with rfl | rfl
    · rw [hthis, hlist]
      exact chain
    · rw [hthat, hlist']
      rfl
  · rcases hcases j with rfl | rfl
    · rw [hthis, hlist]
      exact tail
    · rw [hthat, hlist']
      rfl
  · rcases hcases j with rfl | rfl
    · obtain rfl := (hcases m).resolve_left (Ne.symm hne)
      rw [hthat]
      exact List.not_mem_nil
    · rw [hthat] at hc
      cases hc
  · show c ∈ p.out ∧ c ∉ s.fresh
    rw [out]
    rcases hcases j with rfl | rfl
    · rw [hthis] at hc
      exact (List.mem_append.mp hc).elim (h.used _ c) (h.used _ c)
    · rw [hthat] at hc
      cases hc
  · show c ∈ p.out
    rw [out]
    exact (h.fresh c hc).1

theorem Represents.addFront (h : Represents s q) (i : Fin 2) :
    ∃ s', s.call (.addFront i) = some s' ∧ Represents s'
      (Function.update (Function.update q i (q i.rev ++ q i)) i.rev []) := by
  simp only [call, Linklist.addFront]
  have hlinks (c : ContextId) (hc : c ∈ s.fresh) : s.pool.next c = none := (h.fresh c hc).2
  cases hother : (s.lists i.rev).head with
  | none =>
    have hnil := h.empty hother
    have hnew : s.lists i.rev = .new := by
      have htail : (s.lists i.rev).tail = none := by rw [h.tail, hnil]; rfl
      cases hl : s.lists i.rev
      simp_all [Linklist.new]
    simp only [Linklist.empty, hother, Option.isNone_none, if_true, Option.map_some]
    rw [hnew]
    refine ⟨_, rfl, h.joined i h.pooled ?_ ?_ rfl hlinks⟩
    · rw [hnil]
      exact h.chain i
    · rw [hnil]
      exact h.tail i
  | some o =>
    simp only [Linklist.empty, hother, Option.isNone_some, Bool.false_eq_true, if_false]
    cases hhead : (s.lists i).head with
    | none =>
      have hnil := h.empty hhead
      refine ⟨_, rfl, h.joined i h.pooled ?_ ?_ rfl hlinks⟩
      · rw [hnil, List.append_nil, ← hother]
        exact h.chain i.rev
      · rw [hnil, List.append_nil]
        exact h.tail i.rev
    | some a =>
      obtain ⟨t, htail, hlast, ht⟩ := h.tail_eq (i := i.rev) (by rw [hother]; nofun)
      have hti : t ∉ q i := h.apart i.rev i (ne_rev i).symm t ht
      have hne : q i ≠ [] := by
        rintro hnil
        rw [(h.chain i).head_eq, hnil] at hhead
        cases hhead
      rw [htail]
      refine ⟨_, rfl, h.joined (p := s.pool.setNext t (some a)) (l := ⟨some o, (s.lists i).tail⟩) i
        (h.pooled.setNext (h.used _ t ht).1 _) ?_ ?_ rfl fun c hc => ?_⟩
      · rw [SendContextPool.setNext_next, ← hhead, ← hother]
        exact (h.chain i.rev).append (h.chain i) hlast hti
      · show (s.lists i).tail = _
        rw [List.getLast?_append_of_ne_nil _ hne]
        exact h.tail i
      · have hct : c ≠ t := by
          rintro rfl
          exact (h.used _ c ht).2 hc
        rw [SendContextPool.setNext_next, Function.update_of_ne hct]
        exact hlinks c hc

/-! ## Runs -/

/-- A call that is allowed has its meaning, and does what it should to the sequences. -/
theorem Represents.call (h : Represents s q) {a : ListCall} (allowed : a.allowed s = true) :
    ∃ s', s.call a = some s' ∧ Represents s' (a.apply q) := by
  cases a with
  | get fd buff len => exact h.get fd buff len
  | put c => exact h.put (of_decide_eq_true allowed)
  | pushBack i c => exact h.pushBack i (of_decide_eq_true allowed)
  | popFront i => exact h.popFront i
  | clear i => exact h.clear i
  | addFront i => exact h.addFront i

theorem Represents.step (h : Represents s q) {a : ListCall}
    (hstep : Linklists.step s a = some s') : Represents s' (a.apply q) := by
  unfold Linklists.step at hstep
  split at hstep
  · rename_i hallowed
    obtain ⟨w, hw, hrepresents⟩ := h.call hallowed
    obtain rfl := Option.some.inj (hw.symm.trans hstep)
    exact hrepresents
  · cases hstep

theorem Represents.exec (h : Represents s q) (calls : List ListCall)
    (run : Machine.exec Linklists.step s calls = some s') :
    Represents s' (calls.foldl ListCall.apply q) := by
  induction calls generalizing s q with
  | nil =>
    cases run
    exact h
  | cons a calls ih =>
    simp only [Machine.exec, Option.bind_eq_some_iff] at run
    obtain ⟨u, hu, hrest⟩ := run
    exact ih (h.step hu) hrest

/-- After any calls on two lists that were empty, each of them is the sequence that these calls
give, and no further call that is allowed reads a null pointer or fails to come to an end. -/
theorem linklist_refines (calls : List ListCall)
    (run : Machine.exec Linklists.step Linklists.new calls = some s) :
    Chained s (calls.foldl ListCall.apply fun _ => []) ∧
      ∀ a : ListCall, a.allowed s = true → ∃ s', Linklists.step s a = some s' ∧
        Chained s' (a.apply (calls.foldl ListCall.apply fun _ => [])) := by
  have h := Represents.new.exec calls run
  refine ⟨h.chained, fun a hallowed => ?_⟩
  obtain ⟨s', hs', hrepresents⟩ := h.call hallowed
  refine ⟨s', ?_, hrepresents.chained⟩
  unfold Linklists.step
  rw [if_pos hallowed]
  exact hs'

def spliceCalls (i j : Fin 2) : List ListCall :=
  [.get 3 ⟨[7], 0, 1⟩ 0, .get 3 ⟨[8], 0, 1⟩ 0, .get 3 ⟨[9], 0, 1⟩ 0, .pushBack i 1, .pushBack j 0,
    .pushBack j 2, .popFront i, .addFront i, .get 3 ⟨[6], 0, 1⟩ 0, .pushBack i 1, .addFront j]

theorem linklist_refines_splice : ∃ s : Linklists,
    Machine.exec Linklists.step Linklists.new (spliceCalls 0 1) = some s ∧
    (s.lists 1).head = some 0 ∧ (s.lists 1).tail = some 1 ∧
    Chain s.pool.next (some 0) [0, 2, 1] ∧ (s.lists 0).head = none := by
  have h : (Machine.exec Linklists.step Linklists.new (spliceCalls 0 1)).map (fun s =>
      ((s.lists 1).head, (s.lists 1).tail, (s.lists 0).head)) =
      some (some 0, some 1, none) := by decide
  obtain ⟨s, hs, hview⟩ := Option.map_eq_some_iff.mp h
  simp only [Prod.mk.injEq] at hview
  obtain ⟨hhead, htail, hempty⟩ := hview
  have hchain := (linklist_refines (spliceCalls 0 1) hs).1.chain 1
  rw [hhead] at hchain
  exact ⟨s, hs, hhead, htail, hchain, hempty⟩

end Linklists

/-! ## The send lists of a socket -/

section Socket

variable {s : TCPSocket} {contents : ContextId → SendContext} {q : Fin 2 → List ContextId}

def Holds (s : TCPSocket) (contents : ContextId → SendContext) (q : Fin 2 → List ContextId) :
    Prop :=
  ∀ i, s.sendLists i = (q i).map contents

theorem Holds.setSendList (h : Holds s contents q) (i : Fin 2) {l : List SendContext}
    {k : List ContextId} (same : l = k.map contents) :
    Holds (s.setSendList i l) contents (Function.update q i k) := by
  intro j
  by_cases hj : j = i
  · subst hj
    simpa [TCPSocket.setSendList] using same
  · simpa [TCPSocket.setSendList, hj] using h j

theorem Holds.pushBack (h : Holds s contents q) (i : Fin 2) (c : ContextId) :
    Holds (s.setSendList i (s.sendLists i ++ [contents c])) contents
      ((ListCall.pushBack i c).apply q) :=
  h.setSendList i (by rw [h i, List.map_append, List.map_singleton])

theorem Holds.popFront (h : Holds s contents q) (i : Fin 2) :
    Holds (s.setSendList i (s.sendLists i).tail) contents ((ListCall.popFront i).apply q) :=
  h.setSendList i (by rw [h i, List.map_tail])

theorem Holds.clearSendLists (h : Holds s contents q) :
    Holds s.clearSendLists contents ((ListCall.clear 1).apply ((ListCall.clear 0).apply q)) :=
  (h.setSendList 0 (k := []) rfl).setSendList 1 (k := []) rfl

/-- `add_front` of the other list, which the worker has taken from, puts it before what came in
meanwhile. -/
theorem Holds.addFront (h : Holds s contents q) :
    Holds (s.addFront s.slistIdx.rev) contents ((ListCall.addFront s.slistIdx).apply q) := by
  refine (h.setSendList s.slistIdx ?_).setSendList s.slistIdx.rev rfl
  rw [h s.slistIdx.rev, TCPSocket.ptrSendlist, h s.slistIdx, List.map_append]

end Socket

end Hwnet.TCPSocket
