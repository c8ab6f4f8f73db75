import Mathlib.Algebra.GroupWithZero.Nat
import Hwnet.Buffer

set_option autoImplicit false

/-!
# Buffers stay within their blocks

A buffer lies in its block up to its capacity, not only up to its length. Every operation checks
lengths and capacities of buffers only, and that is enough.
-/
namespace Hwnet.Buffers

def Pointer.readable (m : Mem) (l : UInt64) : Pointer → Bool
  | .null => false
  | .block p off => (m.size p).any fun n => off.toNat + l.toNat ≤ n
  | .outside bytes => l.toNat ≤ bytes.length

def Pointer.within : Pointer → Option ℕ
  | .block p _ => some p
  | _ => none

/-- A source for buffer `i`: null, or readable and not in the block of the buffer. -/
def Sys.source (s : Sys) (i : ℕ) (ptr : Pointer) (l : UInt64) : Bool :=
  (s.buffer i).any fun x => ptr = .null || ptr.readable s.mem l && ptr.within ≠ some x.buff

def valid (st : Sys) : Op → Bool
  | .new _ _ => true
  | .newStr str len => str = .null || str.readable st.mem len
  | .newSlice j _ _ => (st.buffer j).isSome
  | .copy i _ ptr l | .append i ptr l => st.source i ptr l
  | .appendBuffer i j => (st.buffer j).any fun o => st.source i o.BuffPtr o.len
  | .drop i => (st.buffer i).isSome

structure Fits (m : Mem) (x : Buffer) : Prop where
  len : x.len ≤ x.cap
  block : ∃ n, m.size x.buff = some n ∧ x.b.toNat + x.cap.toNat ≤ n

structure Sound (s : Sys) : Prop where
  sized : ∀ p n, s.mem.size p = some n → n < 2 ^ 64
  fits : ∀ i x, s.buffer i = some x → Fits s.mem x

theorem load_readable {m : Mem} {ptr : Pointer} {l : UInt64} (h : ptr.readable m l = true) :
    ∃ data, ptr.load m l = some data ∧ data.length = l.toNat := by
  cases ptr with
  | null => cases h
  | block p off =>
    obtain ⟨n, hn, hbound⟩ := (Option.any_eq_true _ _).mp h
    exact Memory.Mem.load_some hn (of_decide_eq_true hbound)
  | outside bytes =>
    have hle : l.toNat ≤ bytes.length := by simpa [Pointer.readable] using h
    refine ⟨(bytes.take l.toNat).map some, by simp [Pointer.load, hle], ?_⟩
    simp only [List.length_map, List.length_take]
    omega

theorem memcpy_eq_some {m m' : Mem} {p : ℕ} {off l : UInt64} {ptr : Pointer} :
    memcpy m p off ptr l = some m' ↔
      ∃ data, ptr.load m l = some data ∧ m.store p off.toNat data = some m' := by
  simp [memcpy, Option.bind_eq_some_iff]

theorem memcpy_size {m m' : Mem} {p : ℕ} {off l : UInt64} {ptr : Pointer}
    (h : memcpy m p off ptr l = some m') (q : ℕ) : m'.size q = m.size q := by
  obtain ⟨data, -, hstore⟩ := memcpy_eq_some.mp h
  exact Memory.Mem.size_store hstore q

theorem size_readable {m : Mem} {ptr : Pointer} {l : UInt64} (h : ptr.readable m l = true) {p : ℕ}
    (within : ptr.within = some p) : ∃ n, m.size p = some n := by
  cases ptr with
  | null | outside bytes => cases within
  | block q off =>
    cases within
    obtain ⟨n, hn, _⟩ := (Option.any_eq_true _ _).mp h
    exact ⟨n, hn⟩

theorem readable_mono {m m' : Mem} {ptr : Pointer} {l : UInt64} (h : ptr.readable m l = true)
    (keeps : ∀ p n, ptr.within = some p → m.size p = some n → m'.size p = some n) :
    ptr.readable m' l = true := by
  cases ptr with
  | null | outside bytes => exact h
  | block p off =>
    obtain ⟨n, hn, hbound⟩ := (Option.any_eq_true _ _).mp h
    exact (Option.any_eq_true _ _).mpr ⟨n, keeps p n rfl hn, hbound⟩

variable {s s' : Sys} {m : Mem} {i : ℕ} {x : Buffer}

theorem buffer_put (h : s.buffer i = some x) (y : Buffer) (j : ℕ) :
    (s.put i y).buffer j = if j = i then some y else s.buffer j := by
  have hlt : i < s.buffers.length := by
    by_contra hge
    rw [Sys.buffer, List.getElem?_eq_none (Nat.not_lt.mp hge)] at h
    cases h
  simp only [Sys.buffer, Sys.put, List.getElem?_set]
  by_cases hj : j = i
  · subst hj
    simp [hlt]
  · rw [if_neg (Ne.symm hj), if_neg hj]

theorem Fits.mono {m m' : Mem} (h : Fits m x) (keeps : ∀ n, m.size x.buff = some n →
    m'.size x.buff = some n) : Fits m' x := by
  obtain ⟨n, hn, hbound⟩ := h.block
  exact ⟨h.len, n, keeps n hn, hbound⟩

theorem Sound.put (h : Sound s) (at_ : s.buffer i = some x) {y : Buffer}
    (keeps : ∀ p n, s.mem.size p = some n → m.size p = some n)
    (sized : ∀ p n, m.size p = some n → n < 2 ^ 64) (fits : Fits m y) :
    Sound ({ s with mem := m }.put i y) := by
  refine ⟨sized, fun j z hz => ?_⟩
  rw [buffer_put (s := { s with mem := m }) at_] at hz
  split at hz
  · cases hz
    exact fits
  · exact (h.fits j z hz).mono fun n => keeps z.buff n

theorem Sound.added (h : Sound s) {y : Buffer}
    (keeps : ∀ p n, s.mem.size p = some n → m.size p = some n)
    (sized : ∀ p n, m.size p = some n → n < 2 ^ 64) (fits : Fits m y) :
    Sound ⟨m, s.buffers ++ [some y]⟩ := by
  refine ⟨sized, fun j z hz => ?_⟩
  simp only [Sys.buffer, List.getElem?_append] at hz
  split at hz
  · exact (h.fits j z hz).mono fun n => keeps z.buff n
  · rw [List.getElem?_singleton] at hz
    split at hz <;> cases hz
    exact fits

theorem Sound.release (h : Sound s) (p : ℕ) : Sound (s.release p) ∧
    ∀ q, q ≠ p → (s.release p).mem.size q = s.mem.size q := by
  unfold Sys.release
  split
  · exact ⟨h, fun _ _ => rfl⟩
  · rename_i hunowned
    refine ⟨⟨fun q n hq => ?_, fun j z hz => ?_⟩, fun q hq => ?_⟩
    · rw [Memory.Mem.size_free] at hq
      split at hq
      · cases hq
      · exact h.sized q n hq
    · have howned : z.buff ≠ p := by
        intro heq
        refine hunowned (List.any_eq_true.mpr ⟨some z, ?_, by simp [heq]⟩)
        obtain ⟨o, ho, hzo⟩ := Option.bind_eq_some_iff.mp hz
        cases hzo
        exact List.mem_of_getElem? ho
      refine (h.fits j z hz).mono fun n hn => ?_
      rw [Memory.Mem.size_free, if_neg howned]
      exact hn
    · rw [Memory.Mem.size_free, if_neg hq]

theorem Sound.sized_alloc (h : Sound s) (c : UInt64) (p n : ℕ)
    (hp : (s.mem.alloc c.toNat).1.size p = some n) : n < 2 ^ 64 := by
  rw [Memory.Mem.size_alloc] at hp
  split at hp
  · cases hp
    exact c.toNat_lt
  · exact h.sized p n hp

theorem buffer_release (s : Sys) (p j : ℕ) : (s.release p).buffer j = s.buffer j := by
  unfold Sys.release
  split <;> rfl

def Sys.Shared (s : Sys) (i p : ℕ) : Prop := ∃ k y, k ≠ i ∧ s.buffer k = some y ∧ y.buff = p

theorem holds_buff_iff {p : ℕ} : (s.buffers.any fun o => o.any (·.buff = p)) = true ↔
    ∃ k y, s.buffer k = some y ∧ y.buff = p := by
  rw [List.any_eq_true]
  constructor
  · rintro ⟨o, ho, hany⟩
    obtain ⟨k, hk⟩ := List.mem_iff_getElem?.mp ho
    obtain ⟨y, rfl, hy⟩ := (Option.any_eq_true _ _).mp hany
    exact ⟨k, y, by rw [Sys.buffer, hk]; rfl, of_decide_eq_true hy⟩
  · rintro ⟨k, y, hk, hy⟩
    obtain ⟨o, ho, hjoin⟩ := Option.bind_eq_some_iff.mp hk
    cases hjoin
    exact ⟨some y, List.mem_of_getElem? ho, by simp [hy]⟩

/-- Once `i` has left the block, it goes on to be owned just where it was shared. -/
theorem owned_put (at_ : s.buffer i = some x) {y : Buffer} {p : ℕ} (left : y.buff ≠ p) :
    ((s.put i y).buffers.any fun o => o.any (·.buff = p)) = true ↔ s.Shared i p := by
  rw [holds_buff_iff]
  have hput := buffer_put at_ y
  constructor
  · rintro ⟨k, z, hk, hz⟩
    rw [hput] at hk
    split at hk
    · cases hk
      exact absurd hz left
    · exact ⟨k, z, by assumption, hk, hz⟩
  · rintro ⟨k, z, hki, hk, hz⟩
    exact ⟨k, z, by rw [hput, if_neg hki, hk], hz⟩

structure Replaced (s s' : Sys) (i : ℕ) (x : Buffer) (p : ℕ) (k : UInt64) : Prop where
  head : s'.mem.load p 0 k.toNat = s.mem.load x.buff x.b.toNat k.toNat
  others : ∀ q, q ≠ x.buff → s.mem.cells q ≠ none → s'.mem.cells q = s.mem.cells q
  kept : s.Shared i x.buff → s'.mem.cells x.buff = s.mem.cells x.buff
  freed : ¬ s.Shared i x.buff → s'.mem.cells x.buff = none

theorem release_cells (s : Sys) (p q : ℕ) (h : q ≠ p) :
    (s.release p).mem.cells q = s.mem.cells q := by
  unfold Sys.release
  split
  · rfl
  · exact (Memory.Mem.cells_free s.mem p q).trans (if_neg h)

/-- The new block begins as the old one. -/
theorem expand_copies {k newcap : UInt64} (fits : Fits s.mem x) (old : k ≤ x.len)
    (longer : x.len ≤ newcap) {grown : Mem} {p : ℕ} (halloc : s.mem.alloc newcap.toNat = (grown, p)) :
    ∃ mem, (if 0 < k then memcpy grown p 0 x.BuffPtr k else some grown) = some mem ∧
      mem.load p 0 k.toNat = s.mem.load x.buff x.b.toNat k.toNat ∧
      (∀ q, q ≠ p → mem.cells q = s.mem.cells q) ∧ ∀ q, mem.size q = grown.size q := by
  obtain ⟨hlen, n, hn, hbound⟩ := fits
  rw [UInt64.le_iff_toNat_le] at hlen old longer
  have hcells := Memory.Mem.cells_alloc s.mem newcap.toNat
  have hfresh := Memory.Mem.cells_fresh s.mem newcap.toNat
  rw [halloc] at hcells hfresh
  have hnew : grown.load p 0 0 = some [] := by
    refine Memory.Mem.load_eq_some.mpr ⟨_, (hcells p).trans (if_pos rfl), ?_, rfl⟩
    exact Nat.zero_le _
  obtain ⟨data, hdata, hlength⟩ := Memory.Mem.load_some (n := k.toNat) hn
    (show x.b.toNat + k.toNat ≤ n by omega)
  have hne : x.buff ≠ p := by
    intro heq
    rw [heq, Memory.Mem.size, hfresh] at hn
    cases hn
  rw [hdata]
  split
  · rename_i hk
    have hload : x.BuffPtr.load grown k = some data :=
      (Memory.Mem.load_congr ((hcells x.buff).trans (if_neg hne)) _ _).trans hdata
    have hsize : grown.size p = some newcap.toNat := by
      rw [Memory.Mem.size, hcells, if_pos rfl]
      simp
    obtain ⟨mem, hstore, -⟩ := Memory.Mem.store_some hsize
      (show 0 + data.length ≤ newcap.toNat by omega)
    refine ⟨mem, memcpy_eq_some.mpr ⟨data, hload, hstore⟩, ?_, fun q hq => ?_,
      Memory.Mem.size_store hstore⟩
    · have hend := Memory.Mem.load_store_end (n := 0) hstore hnew
      rwa [Nat.zero_add, hlength] at hend
    · obtain ⟨block, -, -, hstored⟩ := Memory.Mem.cells_store hstore
      rw [hstored, if_neg hq, hcells, if_neg hq]
  · rename_i hk
    have hzero : k.toNat = 0 := by
      rw [UInt64.lt_iff_toNat_lt] at hk
      exact Nat.eq_zero_of_not_pos hk
    refine ⟨grown, rfl, ?_, fun q hq => (hcells q).trans (if_neg hq), fun _ => rfl⟩
    rw [hzero, hnew, List.length_eq_zero_iff.mp (hlength.trans hzero)]

theorem expand_some (sound : Sound s) (at_ : s.buffer i = some x) {newcap k : UInt64}
    (old : k ≤ x.len) (longer : x.len ≤ newcap) :
    ∃ s' p, s.expand i x newcap k = some s' ∧ Sound s' ∧
      s'.buffer i = some ⟨p, 0, x.len, newcap⟩ ∧ Replaced s s' i x p k := by
  have hkeeps := fun q n (hq : s.mem.size q = some n) => Memory.Mem.size_alloc_of hq newcap.toNat
  have hsize := Memory.Mem.size_alloc s.mem newcap.toNat
  have hfresh := Memory.Mem.cells_fresh s.mem newcap.toNat
  have hsized := sound.sized_alloc newcap
  have hcopied := fun grown p (h : s.mem.alloc newcap.toNat = (grown, p)) =>
    expand_copies (sound.fits i x at_) old longer h
  generalize halloc : s.mem.alloc newcap.toNat = r at hkeeps hsize hfresh hsized hcopied
  obtain ⟨grown, p⟩ := r
  obtain ⟨mem, hmem, hhead, hcells, hsame⟩ := hcopied grown p rfl
  have hput : Sound ({ s with mem }.put i ⟨p, 0, x.len, newcap⟩) := by
    refine sound.put at_ (fun q n hq => (hsame q).trans (hkeeps q n hq))
      (fun q n hq => hsized q n ((hsame q).symm.trans hq)) ⟨longer, newcap.toNat, ?_, ?_⟩
    · rw [hsame, hsize, if_pos rfl]
    · show 0 + newcap.toNat ≤ newcap.toNat
      omega
  have hbuffer := buffer_put (s := { s with mem }) at_ ⟨p, 0, x.len, newcap⟩
  have hold : x.buff ≠ p := by
    obtain ⟨-, n, hn, -⟩ := sound.fits i x at_
    intro heq
    rw [heq, Memory.Mem.size, hfresh] at hn
    cases hn
  refine ⟨_, p, ?_, (hput.release x.buff).1, ?_, ?_⟩
  · simp only [Sys.expand, halloc]
    split at hmem <;> rename_i hk
    · rw [if_pos hk, hmem]
      rfl
    · rw [if_neg hk, hmem]
      rfl
  · rw [buffer_release, hbuffer, if_pos rfl]
  · have howned := owned_put (s := { s with mem }) (y := ⟨p, 0, x.len, newcap⟩) at_ (Ne.symm hold)
    refine ⟨?_, fun q hq hn => ?_, fun hshared => ?_, fun hsole => ?_⟩
    · rw [Memory.Mem.load_congr (release_cells _ _ p (Ne.symm hold))]
      exact hhead
    · rw [release_cells _ _ q hq]
      refine hcells q ?_
      rintro rfl
      exact hn hfresh
    · rw [Sys.release, if_pos (howned.mpr hshared)]
      exact hcells x.buff hold
    · rw [Sys.release, if_neg (hsole ∘ howned.mp)]
      exact (Memory.Mem.cells_free mem x.buff x.buff).trans (if_pos rfl)

/-- What `Copy` and `Append` have in common: room for `pos + l` where `test` asks for it, then the
source at `pos`. -/
def Sys.overwrite (s : Sys) (i : ℕ) (x : Buffer) (pos l : UInt64) (ptr : Pointer) (test : Bool) :
    Option Sys := do
  let s ← if test then s.expand i x (pos + l) pos else some s
  let x ← s.buffer i
  let mem ← memcpy s.mem x.buff (x.b + pos) ptr l
  return { s with mem }.put i { x with len := pos + l }

theorem copy_enough {need : UInt64} (cap : UInt64) (h : decide (need ≠ cap) = false) :
    need ≤ cap :=
  UInt64.le_of_eq (by simpa using h)

theorem append_enough {need : UInt64} (cap : UInt64) (h : decide (cap < need) = false) :
    need ≤ cap :=
  UInt64.not_lt.mp (of_decide_eq_false h)

theorem copy_eq {pos l : UInt64} {ptr : Pointer} (at_ : s.buffer i = some x)
    (something : ¬ (ptr = .null ∨ l = 0)) (within : ¬ x.len < pos) (above : ¬ pos + l < x.len) :
    s.copy i pos ptr l = s.overwrite i x pos l ptr (decide (pos + l ≠ x.cap)) := by
  simp only [Sys.copy, Sys.overwrite, at_, Option.bind_eq_bind, Option.bind_some,
    if_neg something, if_neg within, if_neg above, decide_eq_true_eq]

theorem append_eq {l : UInt64} {ptr : Pointer} (sound : Sound s) (at_ : s.buffer i = some x)
    (something : ¬ (ptr = .null ∨ l = 0)) (above : ¬ x.len + l < x.len) :
    s.append i ptr l = s.overwrite i x x.len l ptr (decide (x.cap < x.len + l)) := by
  simp only [Sys.append, Sys.overwrite, at_, Option.bind_eq_bind, Option.bind_some,
    if_neg something, if_neg above, decide_eq_true_eq]
  split
  · obtain ⟨s', p, hexpand, -, hbuffer, -⟩ := expand_some sound at_ (UInt64.le_refl x.len)
      (UInt64.not_lt.mp above)
    simp only [hexpand, Option.bind_some, hbuffer]
    rw [UInt64.add_comm x.len 0]
  · rw [UInt64.add_comm x.len x.b]

/-- `Copy` does nothing, or it overwrites. -/
theorem copy_cases (at_ : s.buffer i = some x) (pos l : UInt64) (ptr : Pointer) :
    s.copy i pos ptr l = some s ∨ ptr ≠ .null ∧ pos ≤ x.len ∧ ¬ pos + l < x.len ∧
      s.copy i pos ptr l = s.overwrite i x pos l ptr (decide (pos + l ≠ x.cap)) := by
  by_cases hnothing : ptr = .null ∨ l = 0
  · exact .inl (by simp [Sys.copy, at_, hnothing])
  by_cases hpos : x.len < pos
  · exact .inl (by simp [Sys.copy, at_, hpos])
  by_cases hwrap : pos + l < x.len
  · exact .inl (by simp [Sys.copy, at_, hwrap])
  exact .inr ⟨hnothing ∘ .inl, UInt64.not_lt.mp hpos, hwrap, copy_eq at_ hnothing hpos hwrap⟩

/-- `Append` does nothing, or it overwrites. -/
theorem append_cases (sound : Sound s) (at_ : s.buffer i = some x) (l : UInt64) (ptr : Pointer) :
    s.append i ptr l = some s ∨ ptr ≠ .null ∧ ¬ x.len + l < x.len ∧
      s.append i ptr l = s.overwrite i x x.len l ptr (decide (x.cap < x.len + l)) := by
  by_cases hnothing : ptr = .null ∨ l = 0
  · exact .inl (by simp [Sys.append, at_, hnothing])
  by_cases hwrap : x.len + l < x.len
  · exact .inl (by simp [Sys.append, at_, hwrap])
  exact .inr ⟨hnothing ∘ .inl, hwrap, append_eq sound at_ hnothing hwrap⟩

/-- The source lies in the block that buffer `i` gives up as its last owner. -/
def Sys.Gone (s : Sys) (i : ℕ) (x : Buffer) (ptr : Pointer) (test : Bool) : Prop :=
  test = true ∧ ptr.within = some x.buff ∧ ¬ s.Shared i x.buff

structure Room (s s' : Sys) (i : ℕ) (x x' : Buffer) (newcap pos : UInt64) (test : Bool) :
    Prop where
  sound : Sound s'
  at_ : s'.buffer i = some x'
  len : x'.len = x.len
  cap : newcap ≤ x'.cap
  head : s'.mem.load x'.buff x'.b.toNat pos.toNat = s.mem.load x.buff x.b.toNat pos.toNat
  source : ∀ ptr l, ptr.readable s.mem l = true → ¬ s.Gone i x ptr test →
    ptr.load s'.mem l = ptr.load s.mem l
  gone : ∀ ptr l, s.Gone i x ptr test → ptr.load s'.mem l = none

/-- `Copy` and `Append` expand by different tests; both leave room for the source. -/
theorem grow_some (sound : Sound s) (at_ : s.buffer i = some x) {newcap pos : UInt64}
    (old : pos ≤ x.len) (longer : x.len ≤ newcap) (test : Bool)
    (enough : test = false → newcap ≤ x.cap) :
    ∃ s' x', (if test then s.expand i x newcap pos else some s) = some s' ∧
      Room s s' i x x' newcap pos test := by
  cases test with
  | false =>
    refine ⟨s, x, rfl, sound, at_, rfl, enough rfl, rfl, fun _ _ _ _ => rfl, ?_⟩
    rintro ptr l ⟨h, -⟩
    cases h
  | true =>
    obtain ⟨s', p, hexpand, hsound, hbuffer, hhead, hothers, hkept, hfreed⟩ :=
      expand_some sound at_ old longer
    refine ⟨s', _, hexpand, hsound, hbuffer, rfl, UInt64.le_refl _, hhead,
      fun ptr l hreadable hgone => ?_, ?_⟩
    · cases ptr with
      | null => rfl
      | outside bytes => rfl
      | block q off =>
        refine Memory.Mem.load_congr ?_ _ _
        by_cases hq : q = x.buff
        · rw [hq]
          exact hkept (not_not.mp fun hsole => hgone ⟨rfl, congrArg some hq, hsole⟩)
        · obtain ⟨n, hn⟩ := size_readable hreadable rfl
          refine hothers q hq fun hnone => ?_
          rw [Memory.Mem.size, hnone] at hn
          cases hn
    · rintro ptr l ⟨-, hwithin, hsole⟩
      cases ptr with
      | null | outside => cases hwithin
      | block q off =>
        cases hwithin
        simp [Pointer.load, Memory.Mem.load, hfreed hsole]

theorem toNat_add_of_le {a l len : UInt64} (within : a ≤ len) (above : ¬ a + l < len) :
    a.toNat + l.toNat = (a + l).toNat := by
  have hlt := l.toNat_lt
  rw [UInt64.le_iff_toNat_le] at within
  rw [UInt64.lt_iff_toNat_lt, UInt64.toNat_add] at above
  rw [UInt64.toNat_add]
  omega

theorem Fits.toNat_add (fits : Fits s.mem x) (sound : Sound s) {pos : UInt64} (le : pos ≤ x.cap) :
    (x.b + pos).toNat = x.b.toNat + pos.toNat := by
  obtain ⟨-, n, hn, hbound⟩ := fits
  have hlt := sound.sized x.buff n hn
  rw [UInt64.le_iff_toNat_le] at le
  rw [UInt64.toNat_add]
  exact Nat.mod_eq_of_lt (by omega)

section Overwrite

variable {pos l : UInt64} {ptr : Pointer} {test : Bool}

theorem overwrite_eq : s.overwrite i x pos l ptr test =
    (if test then s.expand i x (pos + l) pos else some s).bind fun s =>
      (s.buffer i).bind fun x => (memcpy s.mem x.buff (x.b + pos) ptr l).bind fun mem =>
        some (({ s with mem } : Sys).put i { x with len := pos + l }) := by
  cases test <;> rfl

theorem overwrite_sound (sound : Sound s) (at_ : s.buffer i = some x) (old : pos ≤ x.len)
    (longer : ¬ pos + l < x.len) (enough : test = false → pos + l ≤ x.cap)
    (h : s.overwrite i x pos l ptr test = some s') : Sound s' := by
  obtain ⟨grown, x', hgrown, room⟩ :=
    grow_some sound at_ old (UInt64.not_lt.mp longer) test enough
  rw [overwrite_eq, hgrown, Option.bind_some, room.at_, Option.bind_some] at h
  obtain ⟨mem, hmem, hput⟩ := Option.bind_eq_some_iff.mp h
  cases hput
  have hsame := memcpy_size hmem
  refine room.sound.put room.at_ (fun q m hq => (hsame q).trans hq) (fun q m hq => ?_)
    ⟨room.cap, ?_⟩
  · exact room.sound.sized q m ((hsame q).symm.trans hq)
  · obtain ⟨-, n, hn, hbound⟩ := room.sound.fits i x' room.at_
    exact ⟨n, (hsame _).trans hn, hbound⟩

/-- The source goes in behind the first `pos` bytes of `x`, unless it is gone by then. -/
theorem overwrite_some (sound : Sound s) (at_ : s.buffer i = some x) (old : pos ≤ x.len)
    (longer : ¬ pos + l < x.len) (enough : test = false → pos + l ≤ x.cap)
    (readable : ptr.readable s.mem l = true) (there : ¬ s.Gone i x ptr test) :
    ∃ s' x' head data, s.overwrite i x pos l ptr test = some s' ∧ Sound s' ∧
      s'.buffer i = some x' ∧ x'.len = pos + l ∧ ptr.load s.mem l = some data ∧
      s.mem.load x.buff x.b.toNat pos.toNat = some head ∧
      x'.ToString s'.mem = some (head ++ data) := by
  obtain ⟨grown, x', hgrown, room⟩ :=
    grow_some sound at_ old (UInt64.not_lt.mp longer) test enough
  obtain ⟨data, hdata, hlength⟩ := load_readable readable
  have hsum := toNat_add_of_le old longer
  obtain ⟨hlen, n, hn, hbound⟩ := room.sound.fits i x' room.at_
  have hcap := UInt64.le_iff_toNat_le.mp room.cap
  have hle : pos ≤ x'.cap := UInt64.le_iff_toNat_le.mpr (by omega)
  have hoff := (room.sound.fits i x' room.at_).toNat_add room.sound hle
  obtain ⟨head, hhead, -⟩ := Memory.Mem.load_some (n := pos.toNat) hn
    (show x'.b.toNat + pos.toNat ≤ n by omega)
  obtain ⟨mem, hstore, -⟩ := Memory.Mem.store_some hn
    (show (x'.b + pos).toNat + data.length ≤ n by omega)
  have hcopied : memcpy grown.mem x'.buff (x'.b + pos) ptr l = some mem :=
    memcpy_eq_some.mpr ⟨data, (room.source ptr l readable there).trans hdata, hstore⟩
  have hover : s.overwrite i x pos l ptr test =
      some (({ grown with mem } : Sys).put i { x' with len := pos + l }) := by
    rw [overwrite_eq, hgrown, Option.bind_some, room.at_, Option.bind_some, hcopied]
    rfl
  refine ⟨_, { x' with len := pos + l }, head, data, hover,
    overwrite_sound sound at_ old longer enough hover, ?_, rfl, hdata,
    room.head.symm.trans hhead, ?_⟩
  · rw [buffer_put (s := { grown with mem }) room.at_, if_pos rfl]
  · rw [hoff] at hstore
    have hend := Memory.Mem.load_store_end hstore hhead
    rwa [hlength, hsum] at hend

theorem overwrite_gone (sound : Sound s) (at_ : s.buffer i = some x) (old : pos ≤ x.len)
    (longer : ¬ pos + l < x.len) (enough : test = false → pos + l ≤ x.cap)
    (gone : s.Gone i x ptr test) : s.overwrite i x pos l ptr test = none := by
  obtain ⟨grown, x', hgrown, room⟩ :=
    grow_some sound at_ old (UInt64.not_lt.mp longer) test enough
  have hcopied : memcpy grown.mem x'.buff (x'.b + pos) ptr l = none := by
    rw [memcpy, room.gone ptr l gone]
    rfl
  rw [overwrite_eq, hgrown, Option.bind_some, room.at_, Option.bind_some, hcopied]
  rfl

end Overwrite

theorem source_some {ptr : Pointer} {l : UInt64} (h : s.source i ptr l = true) :
    ∃ x, s.buffer i = some x ∧
      (ptr ≠ .null → ptr.readable s.mem l = true ∧ ptr.within ≠ some x.buff) := by
  obtain ⟨x, hx, hptr⟩ := (Option.any_eq_true _ _).mp h
  exact ⟨x, hx, fun hnull => by simpa [hnull] using hptr⟩

theorem copy_some (sound : Sound s) {pos l : UInt64} {ptr : Pointer}
    (source : s.source i ptr l = true) : ∃ s', s.copy i pos ptr l = some s' ∧ Sound s' := by
  obtain ⟨x, hx, hptr⟩ := source_some source
  rcases copy_cases hx pos l ptr with hnothing | ⟨hnull, hpos, hwrap, heq⟩
  · exact ⟨s, hnothing, sound⟩
  · obtain ⟨readable, outside⟩ := hptr hnull
    obtain ⟨s', -, -, -, hs', hsound, -⟩ := overwrite_some sound hx hpos hwrap
      (copy_enough x.cap) readable fun hgone => outside hgone.2.1
    exact ⟨s', heq.trans hs', hsound⟩

theorem append_some (sound : Sound s) {l : UInt64} {ptr : Pointer}
    (source : s.source i ptr l = true) : ∃ s', s.append i ptr l = some s' ∧ Sound s' := by
  obtain ⟨x, hx, hptr⟩ := source_some source
  rcases append_cases sound hx l ptr with hnothing | ⟨hnull, hwrap, heq⟩
  · exact ⟨s, hnothing, sound⟩
  · obtain ⟨readable, outside⟩ := hptr hnull
    obtain ⟨s', -, -, -, hs', hsound, -⟩ := overwrite_some sound hx (UInt64.le_refl x.len) hwrap
      (append_enough x.cap) readable fun hgone => outside hgone.2.1
    exact ⟨s', heq.trans hs', hsound⟩

theorem new_eq (s : Sys) (cap_ l : UInt64) : ∃ c y,
    s.new cap_ l = ⟨(s.mem.alloc c).1, s.buffers ++ [some y]⟩ ∧ y.buff = (s.mem.alloc c).2 :=
  ⟨_, _, rfl, rfl⟩

theorem Sound.new (sound : Sound s) (cap_ l : UInt64) : Sound (s.new cap_ l) := by
  unfold Sys.new
  generalize (if cap_ < 16 then 16 else cap_) = c
  show Sound ⟨(s.mem.alloc c.toNat).1, s.buffers ++ [some ⟨(s.mem.alloc c.toNat).2, 0, _, c⟩]⟩
  refine sound.added (fun p n hp => Memory.Mem.size_alloc_of hp c.toNat) (sound.sized_alloc c)
    ⟨?_, c.toNat, ?_, ?_⟩
  · show (if c < l then c else l) ≤ c
    split
    · exact UInt64.le_refl c
    · rename_i h
      exact UInt64.not_lt.mp h
  · rw [Memory.Mem.size_alloc, if_pos rfl]
  · show 0 + c.toNat ≤ c.toNat
    omega

/-- A slice begins at `from_` of the block and not of the buffer, and still ends in the block. -/
theorem newSlice_some (sound : Sound s) {j : ℕ} (exists_ : (s.buffer j).isSome = true)
    (from_ to_ : UInt64) : ∃ s', s.newSlice j from_ to_ = some s' ∧ Sound s' := by
  obtain ⟨o, ho⟩ := Option.isSome_iff_exists.mp exists_
  simp only [Sys.newSlice, ho, Option.bind_eq_bind, Option.bind_some]
  split
  · exact ⟨s, rfl, sound⟩
  split
  · exact ⟨s, rfl, sound⟩
  split
  · exact ⟨s, rfl, sound⟩
  rename_i hbegin horder hend
  obtain ⟨hlen, n, hn, hbound⟩ := sound.fits j o ho
  rw [UInt64.le_iff_toNat_le] at hbegin horder hlen
  rw [UInt64.lt_iff_toNat_lt] at hend
  have hcap : (o.cap - from_).toNat = o.cap.toNat - from_.toNat :=
    UInt64.toNat_sub_of_le _ _ (UInt64.le_iff_toNat_le.mpr (by omega))
  have hcut : (to_ - from_).toNat = to_.toNat - from_.toNat :=
    UInt64.toNat_sub_of_le _ _ (UInt64.le_iff_toNat_le.mpr (by omega))
  refine ⟨_, rfl, sound.added (fun _ _ h => h) sound.sized ⟨?_, n, hn, ?_⟩⟩
  · rw [UInt64.le_iff_toNat_le]
    show (to_ - from_).toNat ≤ (o.cap - from_).toNat
    omega
  · show from_.toNat + (o.cap - from_).toNat ≤ n
    omega

theorem drop_some (sound : Sound s) (exists_ : (s.buffer i).isSome = true) :
    ∃ s', s.drop i = some s' ∧ Sound s' := by
  obtain ⟨x, hx⟩ := Option.isSome_iff_exists.mp exists_
  have hgone : Sound { s with buffers := s.buffers.set i none } := by
    refine ⟨sound.sized, fun j z hz => ?_⟩
    rw [Sys.buffer, List.getElem?_set] at hz
    split at hz
    · split at hz <;> cases hz
    · exact sound.fits j z hz
  exact ⟨_, by simp [Sys.drop, hx], (hgone.release x.buff).1⟩

theorem newStr_some (sound : Sound s) {str : Pointer} {len : UInt64}
    (ok : (str = .null || str.readable s.mem len) = true) :
    ∃ s', s.newStr str len = some s' ∧ Sound s' := by
  unfold Sys.newStr
  split
  · exact ⟨s, rfl, sound⟩
  rename_i hnull
  have hreadable : str.readable s.mem len = true := by simpa [hnull] using ok
  refine append_some (sound.new len 0) ?_
  obtain ⟨c, y, hnew, hbuff⟩ := new_eq s len 0
  have hy : (s.new len 0).buffer s.buffers.length = some y := by simp [hnew, Sys.buffer]
  have houtside : str.within ≠ some y.buff := by
    intro hwithin
    obtain ⟨n, hn⟩ := size_readable hreadable hwithin
    rw [hbuff, Memory.Mem.size_fresh] at hn
    cases hn
  have hstays : str.readable (s.new len 0).mem len = true :=
    readable_mono hreadable fun p n _ hp => by simp only [hnew, Memory.Mem.size_alloc_of hp]
  exact (Option.any_eq_true _ _).mpr ⟨y, hy, by simp [hstays, houtside]⟩

theorem step_some (sound : Sound s) {op : Op} (ok : valid s op = true) :
    ∃ s', step s op = some s' ∧ Sound s' := by
  cases op with
  | new cap_ l => exact ⟨_, rfl, sound.new cap_ l⟩
  | newStr str len => exact newStr_some sound ok
  | newSlice j from_ to_ => exact newSlice_some sound ok from_ to_
  | copy i pos ptr l => exact copy_some sound ok
  | append i ptr l => exact append_some sound ok
  | appendBuffer i j =>
    obtain ⟨o, ho, hsource⟩ := (Option.any_eq_true _ _).mp ok
    obtain ⟨s', hs', hsound⟩ := append_some sound hsource
    exact ⟨s', by simp [step, Sys.appendBuffer, ho, hs'], hsound⟩
  | drop i => exact drop_some sound ok

/-- A size that wraps is below the length, so that nothing is done. -/
theorem add_lt_of_wraps {a l len : UInt64} (within : a ≤ len)
    (wraps : 2 ^ 64 ≤ a.toNat + l.toNat) : a + l < len := by
  have hlt := l.toNat_lt
  rw [UInt64.le_iff_toNat_le] at within
  rw [UInt64.lt_iff_toNat_lt, UInt64.toNat_add]
  omega

theorem copy_wraps (h : s.buffer i = some x) {pos l : UInt64} (ptr : Pointer)
    (wraps : 2 ^ 64 ≤ pos.toNat + l.toNat) : s.copy i pos ptr l = some s := by
  by_cases hpos : x.len < pos
  · simp [Sys.copy, h, hpos]
  · simp [Sys.copy, h, hpos, add_lt_of_wraps (UInt64.not_lt.mp hpos) wraps]

theorem append_wraps (h : s.buffer i = some x) {l : UInt64} (ptr : Pointer)
    (wraps : 2 ^ 64 ≤ x.len.toNat + l.toNat) : s.append i ptr l = some s := by
  simp [Sys.append, h, add_lt_of_wraps (UInt64.le_refl x.len) wraps]

/-- The invariant of every run. -/
theorem sound_runs (h : Machine.Runs step (fun s op => valid s op) Sys.init s) : Sound s := by
  refine h.invariant ⟨fun p n hp => ?_, fun j z hz => ?_⟩ fun u v op _ hu hok hs => ?_
  · cases hp
  · cases hz
  · obtain ⟨s', hs', hsound⟩ := step_some hu hok
    cases hs.symm.trans hs'
    exact hsound

/-- In every run of valid operations every buffer lies within its block up to its capacity, every
access is within a block, and an operation whose size would wrap does nothing. -/
theorem buffers_bounded (h : Machine.Runs step (fun s op => valid s op) Sys.init s) :
    (∀ i x, s.buffer i = some x → x.len ≤ x.cap ∧
      ∃ n, s.mem.size x.buff = some n ∧ x.b.toNat + x.cap.toNat ≤ n) ∧
    (∀ op, valid s op = true → ∃ s', step s op = some s') ∧
    ∀ i x ptr (l : UInt64), s.buffer i = some x →
      (∀ pos : UInt64, 2 ^ 64 ≤ pos.toNat + l.toNat → s.copy i pos ptr l = some s) ∧
      (2 ^ 64 ≤ x.len.toNat + l.toNat → s.append i ptr l = some s) := by
  have hsound := sound_runs h
  refine ⟨fun i x hx => ?_, fun op hop => ?_, fun i x ptr l hx => ⟨fun pos => ?_, ?_⟩⟩
  · exact ⟨(hsound.fits i x hx).len, (hsound.fits i x hx).block⟩
  · obtain ⟨s', hs', _⟩ := step_some hsound hop
    exact ⟨s', hs'⟩
  · exact copy_wraps hx ptr
  · exact append_wraps hx ptr

def slicing : List Op :=
  [.new 16 12, .newSlice 0 4 10, .newSlice 1 1 5, .copy 1 2 (.outside [7, 7, 7, 7, 7]) 5,
    .appendBuffer 2 1, .append 0 (.outside [1, 2, 3, 4, 5]) 5, .drop 2]

theorem buffers_bounded_slicing : ∃ s : Sys,
    Machine.exec (Machine.guarded valid step) Sys.init slicing = some s ∧
    s.buffers = [some ⟨2, 0, 17, 17⟩, some ⟨1, 0, 7, 7⟩, none] ∧ s.mem.size 0 = none ∧
    ∀ op, valid s op = true → ∃ s', step s op = some s' := by
  have h : (Machine.exec (Machine.guarded valid step) Sys.init slicing).map
      (fun s => (s.buffers, s.mem.size 0)) =
      some ([some ⟨2, 0, 17, 17⟩, some ⟨1, 0, 7, 7⟩, none], none) := by decide
  obtain ⟨s, hs, hview⟩ := Option.map_eq_some_iff.mp h
  simp only [Prod.mk.injEq] at hview
  exact ⟨s, hs, hview.1, hview.2, (buffers_bounded (Machine.Runs.of_exec slicing hs)).2.1⟩

end Hwnet.Buffers
