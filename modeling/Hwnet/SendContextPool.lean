import Hwnet.LinkedList
import Hwnet.Machine
import Hwnet.TCPSocket

set_option autoImplicit false

/-!
# The pool of send contexts

Each shard keeps the contexts that were put back in a list linked through the contexts themselves,
and counts them. `out` and `freed` are kept beside the code: which contexts are handed out, and
which were freed.
-/
namespace Hwnet.TCPSocket

abbrev ContextId := ℕ

/-- The memory of a context; `context` is gone once it was destroyed. -/
structure ContextItem where
  context : Option SendContext
  next : Option ContextId
  poolIndex : ℕ

structure Pool where
  count : ℤ
  head : Option ContextId

structure SendContextPool where
  pools : ℕ → Pool
  items : ContextId → ContextItem
  allocated : ℕ
  out : List ContextId
  freed : List ContextId

namespace SendContextPool

def poolCount : ℕ := 257
def itemCount : ℤ := 10000

def new : SendContextPool where
  pools := fun _ => ⟨0, none⟩
  items := fun _ => ⟨none, none, 0⟩
  allocated := 0
  out := []
  freed := []

def get (p : SendContextPool) (fd : ℕ) (buff : Buffer) (len : ℕ) : SendContextPool :=
  let index := fd % poolCount
  let item : ContextItem := ⟨some (getSendContext buff len), none, index⟩
  match (p.pools index).head with
  | none =>
    { p with
      items := Function.update p.items p.allocated item
      allocated := p.allocated + 1
      out := p.allocated :: p.out }
  | some s =>
    { p with
      pools := Function.update p.pools index ⟨(p.pools index).count - 1, (p.items s).next⟩
      items := Function.update p.items s item
      out := s :: p.out }

/-- The destructor clears `next` before the link is written: it is the link of the old head, not
the old head. -/
def put (p : SendContextPool) (s : ContextId) : SendContextPool :=
  let index := (p.items s).poolIndex
  let items := Function.update p.items s ⟨none, none, index⟩
  if (p.pools index).count < itemCount then
    let next := (p.pools index).head.bind fun head => (items head).next
    { p with
      pools := Function.update p.pools index ⟨(p.pools index).count + 1, some s⟩
      items := Function.update items s ⟨none, next, index⟩
      out := p.out.erase s }
  else { p with items, out := p.out.erase s, freed := s :: p.freed }

end SendContextPool

inductive PoolCall where
  | get (fd : ℕ) (buff : Buffer) (len : ℕ)
  | put (s : ContextId)
  deriving DecidableEq, Repr

namespace SendContextPool

def step (p : SendContextPool) : PoolCall → Option SendContextPool
  | .get fd buff len => some (p.get fd buff len)
  | .put s => if s ∈ p.out then some (p.put s) else none

/-- `count` is the length of the list, and each context of the shard is handed out, in the list or
freed, in one of the three places and once. -/
def Conserved (p : SendContextPool) (index : ℕ) : Prop :=
  ∃ l, LinkedList.Chain (fun s => (p.items s).next) (p.pools index).head l ∧
    (p.pools index).count = l.length ∧
    ∀ s, s < p.allocated → (p.items s).poolIndex = index →
      p.out.count s + l.count s + p.freed.count s = 1

/-- A context is put back on a list that is not empty and not full. -/
def loses (index : ℕ) (p : SendContextPool) : PoolCall → Bool
  | .get .. => false
  | .put s => decide ((p.items s).poolIndex = index) &&
      (p.pools index).head.isSome && decide ((p.pools index).count < itemCount)

/-! ## What holds in every run -/

structure Sound (p : SendContextPool) : Prop where
  next : ∀ s, (p.items s).next = none
  head : ∀ index s, (p.pools index).head = some s →
    s < p.allocated ∧ (p.items s).poolIndex = index ∧ s ∉ p.out ∧ s ∉ p.freed
  out : p.out.Nodup
  freed : p.freed.Nodup
  outAllocated : ∀ s ∈ p.out, s < p.allocated
  freedAllocated : ∀ s ∈ p.freed, s < p.allocated
  apart : ∀ s ∈ p.out, s ∉ p.freed
  atLeast : ∀ index, ((p.pools index).head.toList.length : ℤ) ≤ (p.pools index).count
  whole : ∀ index, (p.pools index).count = (p.pools index).head.toList.length →
    ∀ s, s < p.allocated → (p.items s).poolIndex = index →
      s ∈ p.out ∨ (p.pools index).head = some s ∨ s ∈ p.freed

/-- Nothing of a shard is lost exactly when its count is right. -/
theorem Sound.conserved_count {p : SendContextPool} (h : p.Sound) (index : ℕ) :
    p.Conserved index ↔ (p.pools index).count = (p.pools index).head.toList.length := by
  constructor
  · intro hc
    obtain ⟨l, hl, hcount, -⟩ := hc
    rw [LinkedList.chain_iff_toList h.next] at hl
    rw [hcount, hl]
  · intro hcount
    refine ⟨(p.pools index).head.toList, (LinkedList.chain_iff_toList h.next).mpr rfl, hcount, ?_⟩
    intro s hs hindex
    have hplace := h.whole index hcount s hs hindex
    by_cases hout : s ∈ p.out
    · have hhead : (p.pools index).head.toList.count s = 0 := by
        refine List.count_eq_zero.mpr fun hmem => ?_
        exact (h.head index s (Option.mem_toList.mp hmem)).2.2.1 hout
      rw [List.count_eq_one_of_mem h.out hout, hhead,
        List.count_eq_zero.mpr (h.apart s hout)]
    · rw [List.count_eq_zero.mpr hout]
      by_cases hfreed : s ∈ p.freed
      · have hhead : (p.pools index).head.toList.count s = 0 := by
          refine List.count_eq_zero.mpr fun hmem => ?_
          exact (h.head index s (Option.mem_toList.mp hmem)).2.2.2 hfreed
        rw [List.count_eq_one_of_mem h.freed hfreed, hhead]
      · have hhead : (p.pools index).head = some s := by
          rcases hplace with hmem | hmem | hmem
          · exact absurd hmem hout
          · exact hmem
          · exact absurd hmem hfreed
        rw [List.count_eq_zero.mpr hfreed, hhead]
        simp

theorem Sound.new : new.Sound where
  next := fun _ => rfl
  head := fun _ _ h => by cases h
  out := List.nodup_nil
  freed := List.nodup_nil
  outAllocated := fun _ h => by cases h
  freedAllocated := fun _ h => by cases h
  apart := fun _ h => by cases h
  atLeast := fun _ => Int.le_refl 0
  whole := fun _ _ s h => absurd h (Nat.not_lt_zero s)

def lost (p : SendContextPool) (index : ℕ) : ℕ :=
  ((p.pools index).count - (p.pools index).head.toList.length).toNat

theorem Sound.lost_eq_zero {p : SendContextPool} (h : p.Sound) (index : ℕ) :
    p.lost index = 0 ↔ (p.pools index).count = (p.pools index).head.toList.length := by
  have hle := h.atLeast index
  unfold lost
  omega

/-! ## The four moves of a context -/

def allocate (p : SendContextPool) (item : ContextItem) : SendContextPool :=
  { p with
    items := Function.update p.items p.allocated item
    allocated := p.allocated + 1
    out := p.allocated :: p.out }

def take (p : SendContextPool) (s : ContextId) (item : ContextItem) : SendContextPool :=
  { p with
    pools := Function.update p.pools item.poolIndex
      ⟨(p.pools item.poolIndex).count - 1, (p.items s).next⟩
    items := Function.update p.items s item
    out := s :: p.out }

def keep (p : SendContextPool) (s : ContextId) (item : ContextItem) : SendContextPool :=
  { p with
    pools := Function.update p.pools item.poolIndex
      ⟨(p.pools item.poolIndex).count + 1, some s⟩
    items := Function.update p.items s item
    out := p.out.erase s }

def release (p : SendContextPool) (s : ContextId) (item : ContextItem) : SendContextPool :=
  { p with
    items := Function.update p.items s item
    out := p.out.erase s
    freed := s :: p.freed }

variable {p : SendContextPool} {s : ContextId} {item : ContextItem} {index : ℕ}

theorem next_update (h : p.Sound) (next : item.next = none) (t : ContextId) :
    (Function.update p.items s item t).next = none := by
  by_cases heq : t = s
  · rw [heq, Function.update_self, next]
  · rw [Function.update_of_ne heq, h.next t]

theorem poolIndex_update (same : item.poolIndex = (p.items s).poolIndex) (t : ContextId) :
    (Function.update p.items s item t).poolIndex = (p.items t).poolIndex := by
  by_cases heq : t = s
  · rw [heq, Function.update_self, same]
  · rw [Function.update_of_ne heq]

theorem Sound.allocate (h : p.Sound) (next : item.next = none) : (p.allocate item).Sound := by
  have old (t : ContextId) (ht : t < p.allocated) :
      (p.allocate item).items t = p.items t :=
    Function.update_of_ne (Nat.ne_of_lt ht) _ _
  refine ⟨next_update h next, fun index t ht => ?_, ?_, h.freed, fun t ht => ?_, fun t ht => ?_,
    fun t ht => ?_, h.atLeast, fun index hcount t ht hindex => ?_⟩
  · obtain ⟨hlt, hindex, hout, hfreed⟩ := h.head index t ht
    refine ⟨Nat.lt_succ_of_lt hlt, by rw [old t hlt, hindex], fun hmem => ?_, hfreed⟩
    rcases List.mem_cons.mp hmem with heq | hmem
    · exact Nat.ne_of_lt hlt heq
    · exact hout hmem
  · exact List.nodup_cons.mpr ⟨fun hmem => Nat.lt_irrefl _ (h.outAllocated _ hmem), h.out⟩
  · rcases List.mem_cons.mp ht with heq | ht
    · exact heq ▸ Nat.lt_succ_self _
    · exact Nat.lt_succ_of_lt (h.outAllocated t ht)
  · exact Nat.lt_succ_of_lt (h.freedAllocated t ht)
  · rcases List.mem_cons.mp ht with heq | ht
    · exact fun hmem => Nat.lt_irrefl _ (heq ▸ h.freedAllocated _ hmem)
    · exact h.apart t ht
  · rcases Nat.lt_succ_iff_lt_or_eq.mp ht with hlt | heq
    · rw [old t hlt] at hindex
      exact (h.whole index hcount t hlt hindex).imp_left (List.mem_cons_of_mem _)
    · exact .inl (heq ▸ List.mem_cons_self)

theorem Sound.take (h : p.Sound) (next : item.next = none)
    (head : (p.pools item.poolIndex).head = some s) : (p.take s item).Sound := by
  obtain ⟨hlt, hindex, hout, hfreed⟩ := h.head _ s head
  have same (t : ContextId) : ((p.take s item).items t).poolIndex = (p.items t).poolIndex :=
    poolIndex_update hindex.symm t
  have here : (p.take s item).pools item.poolIndex =
      ⟨(p.pools item.poolIndex).count - 1, none⟩ := by
    simp only [SendContextPool.take, Function.update_self, h.next s]
  have aside (index : ℕ) (hne : index ≠ item.poolIndex) :
      (p.take s item).pools index = p.pools index := Function.update_of_ne hne _ _
  have hle := h.atLeast item.poolIndex
  rw [head, Option.toList_some, List.length_singleton] at hle
  refine ⟨next_update h next, fun index t ht => ?_, List.nodup_cons.mpr ⟨hout, h.out⟩, h.freed,
    fun t ht => ?_, h.freedAllocated, fun t ht => ?_, fun index => ?_,
    fun index hcount t ht hown => ?_⟩
  · by_cases hi : index = item.poolIndex
    · rw [hi, here] at ht
      cases ht
    · rw [aside index hi] at ht
      obtain ⟨hlt', hindex', hout', hfreed'⟩ := h.head index t ht
      refine ⟨hlt', (same t).trans hindex', fun hmem => ?_, hfreed'⟩
      rcases List.mem_cons.mp hmem with heq | hmem
      · exact hi (by rw [← hindex', heq, hindex])
      · exact hout' hmem
  · rcases List.mem_cons.mp ht with heq | ht
    · exact heq ▸ hlt
    · exact h.outAllocated t ht
  · rcases List.mem_cons.mp ht with heq | ht
    · exact heq ▸ hfreed
    · exact h.apart t ht
  · by_cases hi : index = item.poolIndex
    · rw [hi, here]
      simp only [Option.toList_none, List.length_nil]
      omega
    · rw [aside index hi]
      exact h.atLeast index
  · rw [same t] at hown
    by_cases hi : index = item.poolIndex
    · subst hi
      rw [here] at hcount ⊢
      simp only [Option.toList_none, List.length_nil] at hcount
      have hone : (p.pools item.poolIndex).count =
          (p.pools item.poolIndex).head.toList.length := by
        rw [head, Option.toList_some, List.length_singleton]
        omega
      rcases h.whole _ hone t ht hown with hmem | hmem | hmem
      · exact .inl (List.mem_cons_of_mem _ hmem)
      · exact .inl (Option.some.inj (head.symm.trans hmem) ▸ List.mem_cons_self)
      · exact .inr (.inr hmem)
    · rw [aside index hi] at hcount ⊢
      exact (h.whole index hcount t ht hown).imp_left (List.mem_cons_of_mem _)

theorem Sound.keep (h : p.Sound) (next : item.next = none) (user : s ∈ p.out)
    (same : item.poolIndex = (p.items s).poolIndex) : (p.keep s item).Sound := by
  have hown (t : ContextId) : ((p.keep s item).items t).poolIndex = (p.items t).poolIndex :=
    poolIndex_update same t
  have here : (p.keep s item).pools item.poolIndex =
      ⟨(p.pools item.poolIndex).count + 1, some s⟩ := Function.update_self _ _ _
  have aside (index : ℕ) (hne : index ≠ item.poolIndex) :
      (p.keep s item).pools index = p.pools index := Function.update_of_ne hne _ _
  have gone : s ∉ p.out.erase s := h.out.not_mem_erase
  refine ⟨next_update h next, fun index t ht => ?_, h.out.erase s, h.freed, fun t ht => ?_,
    h.freedAllocated, fun t ht => ?_, fun index => ?_, fun index hcount t ht hindex => ?_⟩
  · by_cases hi : index = item.poolIndex
    · rw [hi, here] at ht
      cases ht
      exact ⟨h.outAllocated s user, (hown s).trans (hi ▸ same.symm), gone, h.apart s user⟩
    · rw [aside index hi] at ht
      obtain ⟨hlt, hindex, hout, hfreed⟩ := h.head index t ht
      exact ⟨hlt, (hown t).trans hindex, fun hmem => hout (List.mem_of_mem_erase hmem), hfreed⟩
  · exact h.outAllocated t (List.mem_of_mem_erase ht)
  · exact h.apart t (List.mem_of_mem_erase ht)
  · by_cases hi : index = item.poolIndex
    · have hle := h.atLeast item.poolIndex
      rw [hi, here]
      simp only [Option.toList_some, List.length_singleton]
      omega
    · rw [aside index hi]
      exact h.atLeast index
  · rw [hown t] at hindex
    by_cases hi : index = item.poolIndex
    · -- The count is right after the move only if the list was empty before it.
      have hle := h.atLeast item.poolIndex
      rw [hi] at hindex hcount ⊢
      rw [here] at hcount ⊢
      simp only [Option.toList_some, List.length_singleton] at hcount
      have hempty : (p.pools item.poolIndex).head.toList.length = 0 := by omega
      have hright : (p.pools item.poolIndex).count =
          (p.pools item.poolIndex).head.toList.length := by omega
      by_cases heq : t = s
      · exact .inr (.inl (by rw [heq]))
      · rcases h.whole _ hright t ht hindex with hmem | hmem | hmem
        · exact .inl ((List.mem_erase_of_ne heq).mpr hmem)
        · rw [hmem, Option.toList_some, List.length_singleton] at hempty
          cases hempty
        · exact .inr (.inr hmem)
    · rw [aside index hi] at hcount ⊢
      have heq : t ≠ s := fun heq => hi (by rw [← hindex, heq, same])
      exact (h.whole index hcount t ht hindex).imp_left (List.mem_erase_of_ne heq).mpr

theorem Sound.release (h : p.Sound) (next : item.next = none) (user : s ∈ p.out)
    (same : item.poolIndex = (p.items s).poolIndex) : (p.release s item).Sound := by
  have hown (t : ContextId) : ((p.release s item).items t).poolIndex = (p.items t).poolIndex :=
    poolIndex_update same t
  refine ⟨next_update h next, fun index t ht => ?_, h.out.erase s,
    List.nodup_cons.mpr ⟨h.apart s user, h.freed⟩, fun t ht => ?_, fun t ht => ?_, fun t ht => ?_,
    h.atLeast, fun index hcount t ht hindex => ?_⟩
  · obtain ⟨hlt, hindex, hout, hfreed⟩ := h.head index t ht
    refine ⟨hlt, (hown t).trans hindex, fun hmem => hout (List.mem_of_mem_erase hmem), ?_⟩
    intro hmem
    rcases List.mem_cons.mp hmem with heq | hmem
    · exact hout (heq ▸ user)
    · exact hfreed hmem
  · exact h.outAllocated t (List.mem_of_mem_erase ht)
  · rcases List.mem_cons.mp ht with heq | ht
    · exact heq ▸ h.outAllocated s user
    · exact h.freedAllocated t ht
  · intro hmem
    rcases List.mem_cons.mp hmem with heq | hmem
    · exact h.out.not_mem_erase (heq ▸ ht)
    · exact h.apart t (List.mem_of_mem_erase ht) hmem
  · rw [hown t] at hindex
    by_cases heq : t = s
    · exact .inr (.inr (heq ▸ List.mem_cons_self))
    · rcases h.whole index hcount t ht hindex with hmem | hmem | hmem
      · exact .inl ((List.mem_erase_of_ne heq).mpr hmem)
      · exact .inr (.inl hmem)
      · exact .inr (.inr (List.mem_cons_of_mem _ hmem))

theorem lost_take (h : p.Sound) (head : (p.pools item.poolIndex).head = some s) (index : ℕ) :
    (p.take s item).lost index = p.lost index := by
  unfold lost
  by_cases hi : index = item.poolIndex
  · rw [hi]
    simp only [SendContextPool.take, Function.update_self, h.next s, head, Option.toList_none,
      Option.toList_some, List.length_nil, List.length_singleton]
    omega
  · simp only [SendContextPool.take, Function.update_of_ne hi]

theorem lost_keep (h : p.Sound) (index : ℕ) :
    (p.keep s item).lost index = p.lost index +
      (decide (item.poolIndex = index) && (p.pools index).head.isSome).toNat := by
  have hle := h.atLeast index
  unfold lost
  by_cases hi : index = item.poolIndex
  · subst hi
    simp only [SendContextPool.keep, Function.update_self, Option.toList_some,
      List.length_singleton, decide_true, Bool.true_and]
    cases hhead : (p.pools item.poolIndex).head with
    | none =>
      rw [hhead] at hle
      simp only [Option.toList_none, List.length_nil, Option.isSome_none, Bool.toNat_false]
      omega
    | some t =>
      rw [hhead, Option.toList_some, List.length_singleton] at hle
      simp only [Option.toList_some, List.length_singleton, Option.isSome_some, Bool.toNat_true]
      omega
  · have hne : item.poolIndex ≠ index := fun h => hi h.symm
    simp [SendContextPool.keep, Function.update_of_ne hi, hne]

/-! ## Runs -/

theorem get_moves (p : SendContextPool) (fd : ℕ) (buff : Buffer) (len : ℕ) :
    p.get fd buff len =
      match (p.pools (fd % poolCount)).head with
      | none => p.allocate ⟨some (getSendContext buff len), none, fd % poolCount⟩
      | some s => p.take s ⟨some (getSendContext buff len), none, fd % poolCount⟩ := rfl

/-- No link is ever written: that of the old head is the null pointer. -/
theorem put_moves (s : ContextId) (ends : ∀ head,
    (p.pools (p.items s).poolIndex).head = some head → (p.items head).next = none) :
    p.put s =
      if (p.pools (p.items s).poolIndex).count < itemCount then
        p.keep s ⟨none, none, (p.items s).poolIndex⟩
      else p.release s ⟨none, none, (p.items s).poolIndex⟩ := by
  have hnext : ((p.pools (p.items s).poolIndex).head.bind fun head =>
      (Function.update p.items s ⟨none, none, (p.items s).poolIndex⟩ head).next) = none := by
    refine Option.bind_eq_none_iff.mpr fun head hhead => ?_
    by_cases heq : head = s
    · rw [heq, Function.update_self]
    · rw [Function.update_of_ne heq, ends head hhead]
  simp only [put, hnext, Function.update_idem]
  rfl

theorem sound_step {p p' : SendContextPool} {a : PoolCall} (h : p.Sound)
    (hstep : step p a = some p') :
    p'.Sound ∧ ∀ index, p'.lost index = p.lost index + (loses index p a).toNat := by
  cases a with
  | get fd buff len =>
    cases hstep
    rw [get_moves]
    cases hhead : (p.pools (fd % poolCount)).head with
    | none => exact ⟨h.allocate rfl, fun index => rfl⟩
    | some s => exact ⟨h.take rfl hhead, lost_take h hhead⟩
  | put s =>
    simp only [step] at hstep
    split at hstep
    · rename_i user
      cases hstep
      rw [put_moves s fun head _ => h.next head]
      split
      · rename_i hroom
        refine ⟨h.keep rfl user rfl, fun index => (lost_keep h index).trans ?_⟩
        simp only [loses]
        by_cases hi : (p.items s).poolIndex = index
        · rw [← hi, decide_eq_true hroom, Bool.and_true]
        · simp [hi]
      · rename_i hfull
        refine ⟨h.release rfl user rfl, fun index => ?_⟩
        have hkept : loses index p (.put s) = false := by
          simp only [loses]
          by_cases hi : (p.items s).poolIndex = index
          · rw [← hi, decide_eq_false hfull, Bool.and_false]
          · simp [hi]
        rw [hkept]
        rfl
    · cases hstep

theorem reachable_sound {p : SendContextPool} (h : Machine.Reaches step new p) : p.Sound :=
  h.invariant Sound.new fun _ _ _ _ inv _ hstep => (sound_step inv hstep).1

/-- The contexts of a shard are conserved by the gets and puts of a run if and only if no put of
that run finds the list of the shard neither empty nor full. -/
theorem conserved_iff {p : SendContextPool} {calls : List PoolCall}
    (h : Machine.exec step new calls = some p) (index : ℕ) :
    p.Conserved index ↔ Machine.tally step (loses index) new calls = 0 := by
  have hsound := reachable_sound (Machine.Reaches.of_exec calls h)
  have hlost : p.lost index = new.lost index + Machine.tally step (loses index) new calls := by
    refine Machine.tally_exec (loses index) (lost · index) calls h fun u v a run hstep => ?_
    exact (sound_step (reachable_sound run) hstep).2 index
  have hnone : new.lost index = 0 := rfl
  rw [hsound.conserved_count, ← hsound.lost_eq_zero]
  omega

def reuseRun : List PoolCall :=
  [.get 3 ⟨[7], 0, 1⟩ 0, .put 0, .get 260 ⟨[8], 0, 1⟩ 0, .get 3 ⟨[9], 0, 1⟩ 0, .put 1]

theorem conserved_iff_reuse : ∃ p, Machine.exec step new reuseRun = some p ∧
    p.out = [0] ∧ p.Conserved 3 := by
  have h : (Machine.exec step new reuseRun).map SendContextPool.out = some [0] := rfl
  obtain ⟨p, hp, hout⟩ := Option.map_eq_some_iff.mp h
  exact ⟨p, hp, hout, (conserved_iff hp 3).mpr rfl⟩

def loseRun : List PoolCall :=
  [.get 3 ⟨[7], 0, 1⟩ 0, .get 3 ⟨[8], 0, 1⟩ 0, .put 0, .put 1]

theorem context_lost : ∃ p, Machine.exec step new loseRun = some p ∧
    p.out = [] ∧ p.freed = [] ∧ p.allocated = 2 ∧ (p.pools 3).count = 2 ∧
    LinkedList.Chain (fun s => (p.items s).next) (p.pools 3).head [1] ∧ ¬ p.Conserved 3 := by
  have h : (Machine.exec step new loseRun).map (fun p =>
      (p.out, p.freed, p.allocated, (p.pools 3).count, (p.pools 3).head, (p.items 1).next)) =
      some ([], [], 2, 2, some 1, none) := rfl
  obtain ⟨p, hp, hview⟩ := Option.map_eq_some_iff.mp h
  simp only [Prod.mk.injEq] at hview
  obtain ⟨hout, hfreed, hallocated, hcount, hhead, hnext⟩ := hview
  refine ⟨p, hp, hout, hfreed, hallocated, hcount, ⟨hhead, hnext⟩, fun hconserved => ?_⟩
  have hsound := reachable_sound (Machine.Reaches.of_exec loseRun hp)
  have hright := (hsound.conserved_count 3).mp hconserved
  rw [hcount, hhead] at hright
  cases hright

end SendContextPool

end Hwnet.TCPSocket
