import Hwnet.Slices

set_option autoImplicit false

/-!
# Known texts

Over a text whose steps are known the reports of one buffer are known as well: each slice from its
mark to its flush. Over other cuts of the text they are the same once they are joined.
-/
namespace Hwnet.Slices

universe u
variable {σ α κ ω : Type u} [DecidableEq κ]

abbrev Piece (κ α : Type u) := Option (κ × List α)

namespace Piece

def act (x : α) : Piece κ α → Act κ ω → Option (Piece κ α × List (Report α κ ω))
  | none, .mark k => some (some (k, []), [])
  | some (k', l), .mark k => if k = k' then some (some (k', l), []) else none
  | some (k', l), .flush k => if k = k' then some (none, [.data k l]) else none
  | some (k', l), .flushLast k => if k = k' then some (none, [.data k (l ++ [x])]) else none
  | a, .note o => some (a, [.note o])
  | a, .advance 0 => some (a, [])
  | _, _ => none

def perform (x : α) : Piece κ α → List (Act κ ω) → Option (Piece κ α × List (Report α κ ω))
  | a, [] => some (a, [])
  | a, c :: acts =>
    (a.act x c).bind fun b => (perform x b.1 acts).map fun p => (p.1, b.2 ++ p.2)

theorem perform_append (x : α) (a : Piece κ α) (l l' : List (Act κ ω)) :
    a.perform x (l ++ l') =
      (a.perform x l).bind fun b => (b.1.perform x l').map fun p => (p.1, b.2 ++ p.2) := by
  induction l generalizing a with
  | nil => simp [perform]
  | cons c l ih =>
    rw [List.cons_append, perform, perform]
    rcases a.act x c with _ | b
    · rfl
    · rw [Option.bind_some, Option.bind_some, ih]
      rcases b.1.perform x l with _ | d
      · rfl
      · simp [List.append_assoc]
        rfl

def grow (x : α) (a : Piece κ α) : Piece κ α := a.map fun p => (p.1, p.2 ++ [x])

/-- `l` has been read of the slice, which need not be marked before its first element. -/
def Begun (k : κ) (l : List α) (a : Piece κ α) : Prop := a = none ∧ l = [] ∨ a = some (k, l)

theorem Begun.mark {k : κ} {l : List α} {a : Piece κ α} (h : Begun k l a) (x : α)
    (acts : List (Act κ ω)) :
    a.perform x (.mark k :: acts) = Piece.perform x (some (k, l)) acts := by
  rcases h with ⟨rfl, rfl⟩ | rfl <;> simp [Piece.perform, act]

end Piece

/-- From `s` to `t` over the text, with the slices that are open there. -/
inductive Scans (m : Machine σ α κ ω) :
    σ → Piece κ α → List α → σ → Piece κ α → List (Report α κ ω) → Prop where
  | nil (s : σ) (a : Piece κ α) : Scans m s a [] s a []
  | cons {s u t : σ} {a b c : Piece κ α} {x : α} {acts : List (Act κ ω)} {l : List α}
      {out out' : List (Report α κ ω)} (step : m.step s x 1 = ⟨u, acts, .next⟩)
      (perform : a.perform x acts = some (b, out)) (rest : Scans m u (b.grow x) l t c out') :
      Scans m s a (x :: l) t c (out ++ out')

namespace Scans

variable {m : Machine σ α κ ω} {s t u : σ} {a b c : Piece κ α} {l l' : List α}
  {out out' : List (Report α κ ω)}

theorem trans (h : Scans m s a l u b out) (h' : Scans m u b l' t c out') :
    Scans m s a (l ++ l') t c (out ++ out') := by
  induction h with
  | nil => exact h'
  | cons step perform _ ih =>
    rw [List.append_assoc]
    exact .cons step perform (ih h')

theorem single {x : α} {acts : List (Act κ ω)} (step : m.step s x 1 = ⟨u, acts, .next⟩)
    (perform : a.perform x acts = some (b, out)) : Scans m s a [x] u (b.grow x) out := by
  rw [← List.append_nil out]
  exact .cons step perform (.nil u _)

theorem opens {k : κ} {x : α} {acts : List (Act κ ω)} (step : m.step s x 1 = ⟨u, acts, .next⟩)
    (perform : a.perform x acts = some (some (k, []), out)) :
    Scans m s a [x] u (some (k, [x])) out :=
  single step perform

theorem closed {x : α} {acts : List (Act κ ω)} (step : m.step s x 1 = ⟨u, acts, .next⟩)
    (perform : a.perform x acts = some (none, out)) : Scans m s a [x] u none out :=
  single step perform

theorem quiet {x : α} (step : m.step s x 1 = ⟨u, [], .next⟩)
    (rest : Scans m u (a.grow x) l t c out) : Scans m s a (x :: l) t c out :=
  .cons step rfl rest

theorem trace (h : Scans m s a l u b out) :
    (m.trace s l).ending = .next ∧ (m.trace s l).state = u := by
  induction h with
  | nil s a => exact ⟨rfl, rfl⟩
  | cons step _ _ ih =>
    rw [Machine.trace, step]
    exact ih

end Scans

/-! ## The tape -/

namespace Tape

variable {data : List α} {t : Tape α κ ω} {a b : Piece κ α}

def Holds (data : List α) (t : Tape α κ ω) : Piece κ α → Prop
  | none => ∀ k : κ, t.marks k = none
  | some (k, l) => ∃ q : ℕ, q ≤ t.p ∧ t.marks = Function.update (fun _ => none) k (some q) ∧
      slice data q t.p = l

theorem Holds.mark {k : κ} (h : t.Holds data none) :
    (t.act data (.mark k)).Holds data (some (k, [])) ∧
      (t.act data (.mark k)).reports = t.reports ∧ (t.act data (.mark k)).p = t.p := by
  have hact : t.act data (.mark k) =
      { t with marks := Function.update t.marks k (some t.p) } := if_pos (h k)
  have hmarks : t.marks = fun _ => none := funext h
  rw [hact]
  exact ⟨⟨t.p, Nat.le_refl _, by rw [hmarks], slice_self t.p⟩, rfl, rfl⟩

theorem Holds.again {k : κ} {l : List α} (h : t.Holds data (some (k, l))) :
    t.act data (.mark k) = t := by
  obtain ⟨q, -, hmarks, -⟩ := h
  exact if_neg (by simp [hmarks])

theorem Holds.flush {k : κ} {l : List α} (h : t.Holds data (some (k, l))) {p : ℕ} :
    (t.flush data k p).Holds data none ∧ (t.flush data k p).p = t.p ∧
      ∃ q : ℕ, q ≤ t.p ∧ slice data q t.p = l ∧
        (t.flush data k p).reports = t.reports ++ [.data k (slice data q p)] := by
  obtain ⟨q, hq, hmarks, hslice⟩ := h
  have hflush : t.flush data k p =
      { t with
        marks := Function.update t.marks k none
        reports := t.reports ++ [.data k (slice data q p)] } := by
    simp [Tape.flush, hmarks]
  rw [hflush]
  refine ⟨fun k' => ?_, rfl, q, hq, hslice, rfl⟩
  by_cases hk : k' = k
  · simp [hk]
  · simp [hmarks, Function.update_of_ne hk]

variable {x : α} {out : List (Report α κ ω)}

theorem Holds.act (h : t.Holds data a) (hx : data[t.p]? = some x) {o : Act κ ω}
    (hact : a.act x o = some (b, out)) :
    (t.act data o).Holds data b ∧ (t.act data o).reports = t.reports ++ out ∧
      (t.act data o).p = t.p := by
  revert hact
  fun_cases Piece.act x a o <;> intro hact <;> cases hact
  · obtain ⟨hb, hreports, hp⟩ := h.mark
    exact ⟨hb, by rw [hreports, List.append_nil], hp⟩
  · rw [h.again]
    exact ⟨h, (List.append_nil _).symm, rfl⟩
  · obtain ⟨hb, hp, q, -, hslice, hreports⟩ := h.flush (p := t.p)
    exact ⟨hb, by rw [← hslice]; exact hreports, hp⟩
  · obtain ⟨hb, hp, q, hq, hslice, hreports⟩ := h.flush (p := t.p + 1)
    refine ⟨hb, ?_, hp⟩
    rw [← hslice, ← slice_succ hq hx]
    exact hreports
  · exact ⟨h, rfl, rfl⟩
  · exact ⟨h, (List.append_nil _).symm, rfl⟩

theorem Holds.perform (h : t.Holds data a) (hx : data[t.p]? = some x) {acts : List (Act κ ω)}
    (hperform : a.perform x acts = some (b, out)) :
    (t.perform data acts).Holds data b ∧ (t.perform data acts).reports = t.reports ++ out ∧
      (t.perform data acts).p = t.p := by
  induction acts generalizing t a out with
  | nil =>
    cases hperform
    exact ⟨h, (List.append_nil _).symm, rfl⟩
  | cons o acts ih =>
    obtain ⟨⟨a', out₁⟩, hact, hrest⟩ := Option.bind_eq_some_iff.mp hperform
    obtain ⟨⟨b', out₂⟩, hlast, heq⟩ := Option.map_eq_some_iff.mp hrest
    cases heq
    obtain ⟨ha', hreports, hp⟩ := h.act hx hact
    obtain ⟨hb, hreports', hp'⟩ := ih ha' (by rw [hp]; exact hx) hlast
    exact ⟨hb, by rw [← List.append_assoc, ← hreports]; exact hreports', hp'.trans hp⟩

theorem Holds.grow (h : t.Holds data a) (hx : data[t.p]? = some x) :
    Holds data { t with p := t.p + 1 } (a.grow x) := by
  rcases a with _ | ⟨k, l⟩
  · exact h
  · obtain ⟨q, hq, hmarks, hslice⟩ := h
    exact ⟨q, Nat.le_succ_of_le hq, hmarks, by rw [slice_succ hq hx, hslice]⟩

end Tape

/-! ## Buffers -/

namespace Scans

variable {m : Machine σ α κ ω} {s t u : σ} {a b : Piece κ α} {l : List α}
  {out : List (Report α κ ω)}

theorem run (h : Scans m s a l u b out) {data : List α} (post : List α) {t : Tape α κ ω}
    (holds : t.Holds data a) (here : data.drop t.p = l ++ post) : ∃ t' : Tape α κ ω,
      t'.Holds data b ∧ t'.reports = t.reports ++ out ∧ t'.p = t.p + l.length ∧
      m.single.run data (l ++ post) 0 s t = m.single.run data post 0 u t' := by
  induction h generalizing t with
  | nil => exact ⟨t, holds, (List.append_nil _).symm, rfl, rfl⟩
  | @cons s u v a b c x acts l out out' step perform _ ih =>
    have hx : data[t.p]? = some x := by
      have hget := congrArg (·[0]?) here
      simpa using hget
    obtain ⟨hb, hreports, hp⟩ := holds.perform hx perform
    have hb' := hb.grow (x := x) (by rw [hp]; exact hx)
    have hrest : data.drop (t.p + 1) = l ++ post := by
      rw [← List.drop_drop, here]
      rfl
    obtain ⟨t', hlast, hall, hfar, hrun⟩ := ih hb' (by rw [← hrest, ← hp])
    refine ⟨t', hlast, ?_, ?_, ?_⟩
    · rw [hall, ← List.append_assoc, ← hreports]
    · rw [hfar, List.length_cons]
      dsimp only
      omega
    · rw [List.cons_append, Machine.run_single_cons, step]
      dsimp only
      rw [hp, Nat.sub_self, ← hp]
      exact hrun

theorem starting (hresume : m.resume s = none) (l : List α) :
    Tape.Holds l (⟨0, fun k => if m.resume s = some k then some 0 else none, []⟩ : Tape α κ ω)
      none := by
  intro k
  simp [hresume]

theorem execute (h : Scans m s none l u none out) (bulk : m.Bulk) (hresume : m.resume s = none) :
    m.execute s l = ⟨u, out, l.length, .next⟩ := by
  obtain ⟨t, hholds, hreports, hp, hrun⟩ := h.run [] (starting hresume l)
    (List.append_nil l).symm
  have hflush (ks : List κ) : t.perform l (ks.map .flush) = t := by
    induction ks with
    | nil => rfl
    | cons k ks ih =>
      have hk : t.act l (.flush k) = t := by
        show t.flush l k t.p = t
        simp [Tape.flush, hholds k]
      rw [List.map_cons, Tape.perform_cons, hk, ih]
  rw [bulk.execute_eq, Machine.execute]
  nth_rewrite 2 [← List.append_nil l]
  refine hrun.trans ?_
  show Machine.leftover m.single l u t = _
  have hnone : (m.single.kinds u).countP (fun k => (t.marks k).isSome) ≤ 1 := by
    rw [List.countP_eq_zero.mpr fun k _ => by simp [hholds k]]
    exact Nat.zero_le 1
  rw [Machine.leftover, if_pos hnone, hflush, hreports, hp, List.nil_append, Nat.zero_add]

theorem feed (h : Scans m s none l u none out) (lawful : m.Lawful) (bulk : m.Bulk)
    (hresume : m.resume s = none) {ds : List (List α)} (flatten : ds.flatten = l)
    (nonempty : ∀ d ∈ ds, d ≠ []) :
    (m.feed s ds).state = u ∧ (m.feed s ds).consumed = l.length ∧ (m.feed s ds).ending = .next ∧
      join (m.feed s ds).reports = join out := by
  obtain ⟨hstate, hconsumed, hending, tail, hlost, hsame⟩ :=
    lawful.feed_trace (s := s) bulk nonempty
  obtain ⟨hend, hlast⟩ := h.trace
  have hfar := m.trace_consumed s l
  rw [flatten] at hstate hconsumed hending hlost hsame
  rw [hend] at hending hlost hfar
  have htail : tail = [] := by
    rcases hlost with htail | ⟨hstopped, -⟩
    · exact htail
    · simp at hstopped
  rw [htail, List.append_nil] at hsame
  refine ⟨hstate.trans hlast, hconsumed.trans hfar, hending, hsame.join_eq.trans ?_⟩
  cases l with
  | nil =>
    cases h
    rfl
  | cons x l =>
    have hexecute := h.execute bulk hresume
    obtain ⟨-, -, -, tail', hlost', hsame'⟩ :=
      lawful.execute_single (s := s) (List.cons_ne_nil x l)
    rw [← bulk.execute_eq, hexecute] at hsame'
    rw [hend] at hlost'
    have htail' : tail' = [] := by
      rcases hlost' with htail | ⟨hstopped, -⟩
      · exact htail
      · simp at hstopped
    rw [htail', List.append_nil] at hsame'
    exact hsame'.join_eq.symm

end Scans

end Hwnet.Slices
