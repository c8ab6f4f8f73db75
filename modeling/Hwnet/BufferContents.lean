import Hwnet.BufferBounds

set_option autoImplicit false

/-!
# What buffers contain

Slices, appends and copies as laws about the characters. Each law holds up to a condition on where
the buffer lies in its block, on who shares the block, or on the sizes.
-/
namespace Hwnet.Buffers

variable {st st' : Sys} {i j : ℕ} {x o : Buffer} {ptr : Pointer}

/-! ## Every reachable state -/

theorem copy_sound {s l : UInt64} (sound : Sound st) (h : st.copy i s ptr l = some st') :
    Sound st' := by
  obtain ⟨x, hx, -⟩ := Option.bind_eq_some_iff.mp h
  rcases copy_cases hx s l ptr with hnothing | ⟨-, hpos, hwrap, heq⟩
  · cases hnothing.symm.trans h
    exact sound
  · exact overwrite_sound sound hx hpos hwrap (copy_enough x.cap) (heq.symm.trans h)

theorem append_sound {l : UInt64} (sound : Sound st) (h : st.append i ptr l = some st') :
    Sound st' := by
  obtain ⟨x, hx, -⟩ := Option.bind_eq_some_iff.mp h
  rcases append_cases sound hx l ptr with hnothing | ⟨-, hwrap, heq⟩
  · cases hnothing.symm.trans h
    exact sound
  · exact overwrite_sound sound hx (UInt64.le_refl x.len) hwrap (append_enough x.cap)
      (heq.symm.trans h)

theorem step_sound (sound : Sound st) {op : Op} (h : step st op = some st') : Sound st' := by
  cases op with
  | new cap_ l =>
    cases h
    exact sound.new cap_ l
  | newStr str len =>
    simp only [step, Sys.newStr] at h
    split at h
    · cases h
      exact sound
    · exact append_sound (sound.new len 0) h
  | newSlice j s e =>
    obtain ⟨o, ho, -⟩ := Option.bind_eq_some_iff.mp h
    obtain ⟨st'', hslice, hsound⟩ := newSlice_some sound (by rw [ho]; rfl) s e
    cases hslice.symm.trans h
    exact hsound
  | copy i s ptr l => exact copy_sound sound h
  | append i ptr l => exact append_sound sound h
  | appendBuffer i j =>
    obtain ⟨o, -, happend⟩ := Option.bind_eq_some_iff.mp h
    exact append_sound sound happend
  | drop i =>
    obtain ⟨x, hx, -⟩ := Option.bind_eq_some_iff.mp h
    obtain ⟨st'', hdrop, hsound⟩ := drop_some sound (by rw [hx]; rfl)
    cases hdrop.symm.trans h
    exact hsound

theorem sound_init : Sound Sys.init where
  sized := fun _ _ h => by cases h
  fits := fun _ _ h => by cases h

theorem sound_reaches (h : Machine.Reaches step Sys.init st) : Sound st :=
  h.invariant sound_init fun _ _ _ _ inv _ hstep => step_sound inv hstep

theorem ToString_some (sound : Sound st) (at_ : st.buffer i = some x) :
    ∃ cs, x.ToString st.mem = some cs ∧ cs.length = x.len.toNat := by
  obtain ⟨hlen, n, hn, hbound⟩ := sound.fits i x at_
  rw [UInt64.le_iff_toNat_le] at hlen
  exact Memory.Mem.load_some hn (by omega)

/-! ## Slices -/

/-- `y` shows the characters `s .. e-1` of `o`, and each sees what the other writes to them. -/
structure SliceLaw (m : Mem) (o y : Buffer) (s e : ℕ) : Prop where
  string : ∃ cs, o.ToString m = some cs ∧ y.ToString m = some ((cs.drop s).take (e - s))
  fromWhole : ∀ k data m', s ≤ k → k + data.length ≤ e → o.write m k data = some m' →
    ∃ cs, y.ToString m' = some cs ∧ (cs.drop (k - s)).take data.length = data.map some
  fromSlice : ∀ k data m', k + data.length ≤ e - s → y.write m k data = some m' →
    ∃ cs, o.ToString m' = some cs ∧ (cs.drop (s + k)).take data.length = data.map some

theorem load_written {m m' : Mem} {p off n pos : ℕ} {data : List UInt8}
    {old : List (Option UInt8)} (h : m.store p (off + pos) (data.map some) = some m')
    (before : m.load p off n = some old) (inside : pos + data.length ≤ n) :
    ∃ cs, m'.load p off n = some cs ∧ (cs.drop pos).take data.length = data.map some := by
  have hlen := Memory.Mem.length_load before
  have hpos : (old.take pos).length = pos := by
    rw [List.length_take]
    omega
  refine ⟨_, Memory.Mem.load_store h before (by rwa [List.length_map]), ?_⟩
  rw [List.append_assoc, List.drop_left' hpos, List.take_left' (List.length_map _)]

theorem sliceLaw_of_place {m : Mem} {o y : Buffer} {s e : ℕ} {cs : List (Option UInt8)}
    (whole : o.ToString m = some cs) (block : y.buff = o.buff) (place : y.b.toNat = o.b.toNat + s)
    (len : y.len.toNat = e - s) (order : s ≤ e) (within : e ≤ o.len.toNat) : SliceLaw m o y s e := by
  have hcut : m.load o.buff (o.b.toNat + s) (e - s) = some ((cs.drop s).take (e - s)) := by
    have hfront := Memory.Mem.load_drop (Memory.Mem.load_take whole within) order
    rwa [List.drop_take] at hfront
  have hy (m : Mem) : y.ToString m = m.load o.buff (o.b.toNat + s) (e - s) := by
    rw [Buffer.ToString, block, place, len]
  refine ⟨⟨cs, whole, (hy m).trans hcut⟩, fun k data m' hk hend hwrite => ?_,
    fun k data m' hend hwrite => ?_⟩
  · have hoff : o.b.toNat + k = o.b.toNat + s + (k - s) := by omega
    rw [Buffer.write, hoff] at hwrite
    rw [hy]
    exact load_written hwrite hcut (by omega)
  · rw [Buffer.write, block, place, Nat.add_assoc] at hwrite
    exact load_written hwrite whole (by omega)

/-- A view of the same block that begins elsewhere does not see every write. -/
theorem SliceLaw.place {m : Mem} {o y : Buffer} {s e n : ℕ} (law : SliceLaw m o y s e)
    (block : y.buff = o.buff) (order : s < e) (size : m.size o.buff = some n)
    (within : o.b.toNat + e ≤ n) : y.b.toNat = o.b.toNat + s := by
  obtain ⟨cells, hcells, rfl⟩ := Option.map_eq_some_iff.mp size
  by_contra hne
  -- any character written at `s` of `o` would be the one at the beginning of `y`
  have seen (v : UInt8) : cells[y.b.toNat]? = some (some v) := by
    have hbound : o.b.toNat + s + [some v].length ≤ cells.length := by
      rw [List.length_singleton]
      omega
    obtain ⟨m', hstore, -⟩ := Memory.Mem.store_some size hbound
    obtain ⟨cs, hcs, hfirst⟩ := law.fromWhole s [v] m' (Nat.le_refl s) order hstore
    obtain ⟨cells', hcells', -, hstored⟩ := Memory.Mem.cells_store hstore
    cases hcells.symm.trans hcells'
    obtain ⟨shown, hshown, -, rfl⟩ := Memory.Mem.load_eq_some.mp hcs
    rw [block] at hshown
    cases ((hstored o.buff).trans (if_pos rfl)).symm.trans hshown
    have hhead := congrArg (fun l => l[0]?) hfirst
    simp only [List.getElem?_take, List.getElem?_drop, Nat.sub_self, Nat.add_zero,
      List.length_singleton, Nat.zero_lt_one, if_true] at hhead
    split at hhead
    · refine (Memory.Mem.getElem?_stored hbound ?_).symm.trans hhead
      rw [List.length_singleton]
      omega
    · cases hhead
  cases (seen 0).symm.trans (seen 1)

/-- In every reachable state, for every buffer and `s < e` up to its length: the slice obeys the law
if and only if the buffer begins where its block begins. -/
theorem slice_law_iff (h : Machine.Reaches step Sys.init st) {s e : UInt64}
    (at_ : st.buffer j = some o) (order : s < e) (within : e ≤ o.len) :
    ∃ st' y, st.newSlice j s e = some st' ∧ st'.buffers = st.buffers ++ [some y] ∧
      (SliceLaw st'.mem o y s.toNat e.toNat ↔ o.b = 0) := by
  have sound := sound_reaches h
  obtain ⟨hlen, n, hn, hbound⟩ := sound.fits j o at_
  obtain ⟨cs, hcs, -⟩ := ToString_some sound at_
  have hcut := UInt64.toNat_sub_of_le e s (UInt64.le_of_lt order)
  have hslice : st.newSlice j s e =
      some { st with buffers := st.buffers ++ [some ⟨o.buff, s, e - s, o.cap - s⟩] } := by
    have hbegin : ¬ o.len ≤ s :=
      UInt64.not_le.mpr (UInt64.lt_of_lt_of_le order within)
    simp [Sys.newSlice, at_, hbegin, UInt64.not_le.mpr order, UInt64.not_lt.mpr within]
  rw [UInt64.lt_iff_toNat_lt] at order
  rw [UInt64.le_iff_toNat_le] at within hlen
  refine ⟨_, _, hslice, rfl, fun law => ?_, fun hzero => ?_⟩
  · have hplace := law.place rfl order hn (by omega)
    exact UInt64.toNat_inj.mp (Nat.left_eq_add.mp (hplace.trans (Nat.add_comm _ _)))
  · refine sliceLaw_of_place hcs rfl ?_ hcut (Nat.le_of_lt order) within
    rw [hzero]
    exact (Nat.zero_add _).symm

def slicedRun : List Op := [.newStr (.outside [1, 2, 3, 4, 5, 6, 7, 8]) 8, .newSlice 0 2 7]

theorem slice_law_iff_fresh : ∃ st st' y, Machine.exec step Sys.init (slicedRun.take 1) = some st ∧
    st.newSlice 0 2 7 = some st' ∧ st'.buffers = st.buffers ++ [some y] ∧
    SliceLaw st'.mem ⟨0, 0, 8, 16⟩ y 2 7 := by
  have hrun : (Machine.exec step Sys.init (slicedRun.take 1)).map (·.buffer 0) =
      some (some ⟨0, 0, 8, 16⟩) := by decide
  obtain ⟨st, hst, hbuffer⟩ := Option.map_eq_some_iff.mp hrun
  obtain ⟨st', y, hslice, hy, hlaw⟩ := slice_law_iff (s := 2) (e := 7)
    (Machine.Reaches.of_exec _ hst) hbuffer (by decide) (by decide)
  exact ⟨st, st', y, hst, hslice, hy, hlaw.mpr rfl⟩

/-- The slice 1..3 of a slice that begins at 2 shows the characters 1..3 of the block. -/
theorem slice_of_slice_breaks : ∃ st st' y, Machine.exec step Sys.init slicedRun = some st ∧
    st.newSlice 1 1 3 = some st' ∧ st'.buffer 2 = some y ∧
    (st'.buffer 1).bind (·.ToString st'.mem) = some ([3, 4, 5, 6, 7].map some) ∧
    y.ToString st'.mem = some ([2, 3].map some) := by
  have h : ((Machine.exec step Sys.init slicedRun).bind fun st => (st.newSlice 1 1 3).bind fun st' =>
      (st'.buffer 2).map fun y => (y, (st'.buffer 1).bind (·.ToString st'.mem),
        y.ToString st'.mem)) =
      some (⟨0, 1, 2, 13⟩, some ([3, 4, 5, 6, 7].map some), some ([2, 3].map some)) := by decide
  obtain ⟨st, hst, h⟩ := Option.bind_eq_some_iff.mp h
  obtain ⟨st', hst', h⟩ := Option.bind_eq_some_iff.mp h
  obtain ⟨y, hy, hview⟩ := Option.map_eq_some_iff.mp h
  simp only [Prod.mk.injEq] at hview
  exact ⟨st, st', y, hst, hst', hy, hview.2⟩

/-! ## Append -/

def Sys.contents (s : Sys) (i : ℕ) : Option (List (Option UInt8)) :=
  (s.buffer i).bind (·.ToString s.mem)

theorem contents_some (sound : Sound st) (at_ : st.buffer i = some x) :
    ∃ cs, st.contents i = some cs ∧ x.ToString st.mem = some cs ∧ cs.length = x.len.toNat := by
  obtain ⟨cs, hcs, hlen⟩ := ToString_some sound at_
  exact ⟨cs, by rw [Sys.contents, at_, Option.bind_some, hcs], hcs, hlen⟩

def Concatenates (st : Sys) (i j : ℕ) : Prop :=
  ∃ st' xs os, st.appendBuffer i j = some st' ∧ st.contents i = some xs ∧ st.contents j = some os ∧
    st'.contents i = some (xs ++ os)

theorem BuffPtr_readable (sound : Sound st) (at_ : st.buffer j = some o) :
    o.BuffPtr.readable st.mem o.len = true := by
  obtain ⟨hlen, n, hn, hbound⟩ := sound.fits j o at_
  rw [UInt64.le_iff_toNat_le] at hlen
  exact (Option.any_eq_true _ _).mpr ⟨n, hn, decide_eq_true (by omega)⟩

/-- The source of `Append(o)` is gone only where a buffer appends itself. -/
theorem gone_iff (hx : st.buffer i = some x) (ho : st.buffer j = some o) {test : Bool} :
    st.Gone i x o.BuffPtr test ↔ i = j ∧ test = true ∧ ¬ st.Shared i x.buff := by
  constructor
  · rintro ⟨htest, hwithin, hsole⟩
    refine ⟨?_, htest, hsole⟩
    by_contra hne
    exact hsole ⟨j, o, Ne.symm hne, ho, Option.some.inj hwithin⟩
  · rintro ⟨rfl, htest, hsole⟩
    cases hx.symm.trans ho
    exact ⟨htest, rfl, hsole⟩

/-- In every reachable state, for all buffers `x` and `o`, the same or with a common block or not:
`Append` concatenates if and only if the lengths do not wrap and `x` is not, as the only owner of
its block and without room for it, appended to itself. -/
theorem append_concatenates_iff (h : Machine.Reaches step Sys.init st)
    (hx : st.buffer i = some x) (ho : st.buffer j = some o) :
    Concatenates st i j ↔ (o.len = 0 ∨ x.len.toNat + o.len.toNat < 2 ^ 64) ∧
      ¬ (i = j ∧ 0 < x.len ∧ x.cap < x.len + x.len ∧ ¬ st.Shared i x.buff) := by
  have sound := sound_reaches h
  obtain ⟨xs, hxs, hxstr, hxlen⟩ := contents_some sound hx
  obtain ⟨os, hos, hostr, holen⟩ := contents_some sound ho
  have happend : st.appendBuffer i j = st.append i o.BuffPtr o.len := by
    simp [Sys.appendBuffer, ho]
  have unchanged (hst : st.appendBuffer i j = some st) : Concatenates st i j ↔ o.len = 0 := by
    rw [← UInt64.toNat_inj, ← holen]
    constructor
    · rintro ⟨st', xs', os', hst', hxs', hos', hcat⟩
      cases hst.symm.trans hst'
      cases hos.symm.trans hos'
      have hsame := Option.some.inj (hxs'.symm.trans hcat)
      exact List.length_eq_zero_iff.mpr (List.self_eq_append_right.mp hsame)
    · intro hnil
      refine ⟨st, xs, os, hst, hxs, hos, ?_⟩
      rw [hxs, List.length_eq_zero_iff.mp hnil, List.append_nil]
  by_cases hzero : o.len = 0
  · have hst : st.appendBuffer i j = some st := by
      simp [happend, Sys.append, hx, hzero]
    refine iff_of_true ((unchanged hst).mpr hzero) ⟨.inl hzero, ?_⟩
    rintro ⟨rfl, hpos, -⟩
    cases hx.symm.trans ho
    rw [hzero] at hpos
    cases hpos
  by_cases hwrap : x.len + o.len < x.len
  · have hst : st.appendBuffer i j = some st := by
      simp [happend, Sys.append, hx, hwrap]
    refine iff_of_false (mt (unchanged hst).mp hzero) ?_
    rintro ⟨hfits, -⟩
    rw [UInt64.lt_iff_toNat_lt, UInt64.toNat_add, Nat.mod_eq_of_lt (hfits.resolve_left hzero)]
      at hwrap
    omega
  have hnothing : ¬ (o.BuffPtr = .null ∨ o.len = 0) := by simp [Buffer.BuffPtr, hzero]
  have hsum := toNat_add_of_le (UInt64.le_refl x.len) hwrap
  have hlt := (x.len + o.len).toNat_lt
  rw [append_eq sound hx hnothing hwrap] at happend
  by_cases hgone : st.Gone i x o.BuffPtr (decide (x.cap < x.len + o.len))
  · have hnone := overwrite_gone sound hx (UInt64.le_refl x.len) hwrap (append_enough x.cap) hgone
    refine iff_of_false ?_ ?_
    · rintro ⟨st', xs', os', hst', -⟩
      cases (happend.trans hnone).symm.trans hst'
    · obtain ⟨rfl, htest, hsole⟩ := (gone_iff hx ho).mp hgone
      cases hx.symm.trans ho
      rintro ⟨-, hself⟩
      exact hself ⟨rfl, UInt64.pos_iff_ne_zero.mpr hzero, of_decide_eq_true htest, hsole⟩
  · obtain ⟨st', x', head, data, hst', -, hx', -, hdata, hhead, hcat⟩ :=
      overwrite_some sound hx (UInt64.le_refl x.len) hwrap (append_enough x.cap)
        (BuffPtr_readable sound ho) hgone
    cases hdata.symm.trans hostr
    cases hhead.symm.trans hxstr
    refine iff_of_true ⟨st', xs, os, happend.trans hst', hxs, hos, ?_⟩ ⟨.inr (by omega), ?_⟩
    · rw [Sys.contents, hx', Option.bind_some, hcat]
    · rintro ⟨rfl, hpos, hgrows, hsole⟩
      cases hx.symm.trans ho
      exact hgone ((gone_iff hx ho).mpr ⟨rfl, decide_eq_true hgrows, hsole⟩)

def tenRun : List Op := [.newStr (.outside [1, 2, 3, 4, 5, 6, 7, 8, 9, 10]) 10]

/-- A slice keeps the block while its buffer, appended to itself, moves to a longer one. -/
theorem append_concatenates_iff_shared : ∃ st : Sys,
    Machine.exec step Sys.init (tenRun ++ [.newSlice 0 0 2]) = some st ∧ Concatenates st 0 0 := by
  have hrun : (Machine.exec step Sys.init (tenRun ++ [.newSlice 0 0 2])).map
      (fun st => (st.buffer 0, st.buffer 1)) =
      some (some ⟨0, 0, 10, 16⟩, some ⟨0, 0, 2, 16⟩) := by decide
  obtain ⟨st, hst, hview⟩ := Option.map_eq_some_iff.mp hrun
  simp only [Prod.mk.injEq] at hview
  refine ⟨st, hst, ?_⟩
  refine (append_concatenates_iff (Machine.Reaches.of_exec _ hst) hview.1 hview.1).mpr
    ⟨.inr (by decide), ?_⟩
  rintro ⟨-, -, -, hsole⟩
  exact hsole ⟨1, _, by decide, hview.2, rfl⟩

/-- Without the slice the block is gone when the source is read. -/
theorem append_itself_reads_freed : ∃ st : Sys,
    Machine.exec step Sys.init tenRun = some st ∧
    st.contents 0 = some ([1, 2, 3, 4, 5, 6, 7, 8, 9, 10].map some) ∧
    st.appendBuffer 0 0 = none ∧ ¬ Concatenates st 0 0 := by
  have h : (Machine.exec step Sys.init tenRun).map (fun st => (st.contents 0, st.appendBuffer 0 0)) =
      some (some ([1, 2, 3, 4, 5, 6, 7, 8, 9, 10].map some), none) := by decide
  obtain ⟨st, hst, hview⟩ := Option.map_eq_some_iff.mp h
  simp only [Prod.mk.injEq] at hview
  refine ⟨st, hst, hview.1, hview.2, ?_⟩
  rintro ⟨st', _, _, hst', -⟩
  cases hview.2.symm.trans hst'

/-! ## Copy -/

/-- `Copy(s, ptr, l)` writes the source at `s`, leaves the other characters, and has the length that
is then needed. -/
def Writes (st : Sys) (i : ℕ) (s : UInt64) (ptr : Pointer) (l : UInt64) : Prop :=
  ∃ st' x x' cs data, st.copy i s ptr l = some st' ∧ st.buffer i = some x ∧
    st'.buffer i = some x' ∧ x.ToString st.mem = some cs ∧ ptr.load st.mem l = some data ∧
    x'.ToString st'.mem = some (cs.take s.toNat ++ data ++ cs.drop (s.toNat + l.toNat)) ∧
    x'.len.toNat = max x.len.toNat (s.toNat + l.toNat)

/-- `Copy` that does nothing has written the source just where it was there already. -/
theorem writes_unchanged {s l : UInt64} (sound : Sound st) (at_ : st.buffer i = some x)
    (inside : s.toNat + l.toNat ≤ x.len.toNat) (readable : ptr.readable st.mem l = true)
    (same : st.copy i s ptr l = some st) : Writes st i s ptr l ↔
      st.mem.load x.buff (x.b.toNat + s.toNat) l.toNat = ptr.load st.mem l := by
  obtain ⟨cs, hcs, hlen⟩ := ToString_some sound at_
  obtain ⟨data, hdata, hlength⟩ := load_readable readable
  have hpart : st.mem.load x.buff (x.b.toNat + s.toNat) l.toNat =
      some ((cs.drop s.toNat).take l.toNat) := by
    have hrest := Memory.Mem.load_drop (k := s.toNat) hcs (by omega)
    exact Memory.Mem.load_take hrest (by omega)
  have htake : (cs.take s.toNat).length = s.toNat := by
    rw [List.length_take]
    omega
  rw [hpart, hdata, Option.some.injEq]
  constructor
  · rintro ⟨st', x₁, x', cs', data', hst', hx, hx', hcs', hdata', hstr, -⟩
    cases same.symm.trans hst'
    cases hx.symm.trans at_
    cases hx'.symm.trans hx
    cases hcs'.symm.trans hcs
    cases hdata'.symm.trans hdata
    have hsame := Option.some.inj (hcs'.symm.trans hstr)
    rw [hsame, List.append_assoc, List.drop_left' htake, List.take_left' hlength]
  · intro hdone
    refine ⟨st, x, x, cs, data, same, at_, at_, hcs, hdata, ?_, by omega⟩
    rw [hcs, ← hdone, List.append_assoc, ← List.drop_drop, List.take_append_drop,
      List.take_append_drop]

/-- In every reachable state, for every buffer, `s` up to its length and source that can be read:
`Copy` writes if and only if it goes up to the length or beyond, or finds the characters there
already, and the source is not lost with the block the buffer gives up. -/
theorem copy_writes_iff (h : Machine.Reaches step Sys.init st) (at_ : st.buffer i = some x)
    {s l : UInt64} (within : s ≤ x.len) (something : l ≠ 0) (fits : s.toNat + l.toNat < 2 ^ 64)
    (readable : ptr.readable st.mem l = true) : Writes st i s ptr l ↔
      (s.toNat + l.toNat < x.len.toNat →
        st.mem.load x.buff (x.b.toNat + s.toNat) l.toNat = ptr.load st.mem l) ∧
      (x.len.toNat ≤ s.toNat + l.toNat →
        ¬ (s + l ≠ x.cap ∧ ptr.within = some x.buff ∧ ¬ st.Shared i x.buff)) := by
  have sound := sound_reaches h
  have hsum : (s + l).toNat = s.toNat + l.toNat := by
    rw [UInt64.toNat_add, Nat.mod_eq_of_lt fits]
  have hnothing : ¬ (ptr = .null ∨ l = 0) := by
    rintro (rfl | hzero)
    · cases readable
    · exact something hzero
  by_cases hshort : s + l < x.len
  · have hsame : st.copy i s ptr l = some st := by
      simp [Sys.copy, at_, hnothing, UInt64.not_lt.mpr within, hshort]
    rw [UInt64.lt_iff_toNat_lt, hsum] at hshort
    rw [writes_unchanged sound at_ (Nat.le_of_lt hshort) readable hsame]
    exact ⟨fun hdone => ⟨fun _ => hdone, fun hle => absurd hshort (Nat.not_lt.mpr hle)⟩,
      fun hcond => hcond.1 hshort⟩
  · have hle : x.len.toNat ≤ s.toNat + l.toNat := by
      rw [UInt64.lt_iff_toNat_lt, hsum] at hshort
      exact Nat.not_lt.mp hshort
    have hcopy := copy_eq at_ hnothing (UInt64.not_lt.mpr within) hshort
    have htest : st.Gone i x ptr (decide (s + l ≠ x.cap)) ↔
        s + l ≠ x.cap ∧ ptr.within = some x.buff ∧ ¬ st.Shared i x.buff := by
      rw [Sys.Gone, decide_eq_true_iff]
    rw [← htest]
    by_cases hgone : st.Gone i x ptr (decide (s + l ≠ x.cap))
    · have hnone := overwrite_gone sound at_ within hshort (copy_enough x.cap) hgone
      refine iff_of_false ?_ fun hcond => hcond.2 hle hgone
      rintro ⟨st', _, _, _, _, hst', -⟩
      cases (hcopy.trans hnone).symm.trans hst'
    · obtain ⟨st', x', head, data, hst', -, hx', hlen', hdata, hhead, hcat⟩ :=
        overwrite_some sound at_ within hshort (copy_enough x.cap) readable hgone
      obtain ⟨cs, hcs, hlen⟩ := ToString_some sound at_
      have hfront := Memory.Mem.load_take hcs (UInt64.le_iff_toNat_le.mp within)
      cases hhead.symm.trans hfront
      refine iff_of_true ⟨st', x, x', cs, data, hcopy.trans hst', at_, hx', hcs, hdata, ?_, ?_⟩
        ⟨fun hlt => absurd hlt (Nat.not_lt.mpr hle), fun _ => hgone⟩
      · rw [hcat, List.drop_of_length_le (by omega), List.append_nil]
      · rw [hlen', hsum]
        omega

/-- Three characters from position 8 on make ten eleven. -/
theorem copy_writes_iff_beyond : ∃ st : Sys, Machine.exec step Sys.init tenRun = some st ∧
    Writes st 0 8 (.outside [7, 7, 7]) 3 := by
  have hrun : (Machine.exec step Sys.init tenRun).map (·.buffer 0) =
      some (some ⟨0, 0, 10, 16⟩) := by decide
  obtain ⟨st, hst, hbuffer⟩ := Option.map_eq_some_iff.mp hrun
  refine ⟨st, hst, ?_⟩
  refine (copy_writes_iff (Machine.Reaches.of_exec _ hst) hbuffer (by decide) (by decide)
    (by decide) rfl).mpr ⟨fun hlt => absurd hlt (by decide), fun _ hlost => ?_⟩
  cases hlost.2.1

/-- Two characters within the ten are not written. -/
theorem copy_inside_writes_nothing : ∃ st : Sys, Machine.exec step Sys.init tenRun = some st ∧
    st.copy 0 1 (.outside [7, 7]) 2 = some st ∧
    st.contents 0 = some ([1, 2, 3, 4, 5, 6, 7, 8, 9, 10].map some) := by
  have h : (Machine.exec step Sys.init tenRun).map (fun st =>
      (decide (st.copy 0 1 (.outside [7, 7]) 2 = some st), st.contents 0)) =
      some (true, some ([1, 2, 3, 4, 5, 6, 7, 8, 9, 10].map some)) := by decide
  obtain ⟨st, hst, hview⟩ := Option.map_eq_some_iff.mp h
  simp only [Prod.mk.injEq, decide_eq_true_eq] at hview
  exact ⟨st, hst, hview⟩

end Hwnet.Buffers
