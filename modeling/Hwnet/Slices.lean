import Mathlib.Data.List.Basic
import Mathlib.Logic.Function.Basic

set_option autoImplicit false

/-!
# Parsers that report slices of what they read

A parser reads a buffer element by element. A mark is set where a slice begins, a flush reports what
has been read since, and what is still marked at the end of the buffer is reported there. An act may
also advance over several elements at once. `join` puts together the reports of one kind that follow
one another; what is left of the reports then does not depend on how the input was cut into buffers.
-/
namespace Hwnet.Slices

universe u
variable {σ α κ ω : Type u}

inductive Report (α κ ω : Type u) where
  | data (kind : κ) (slice : List α)
  | note (note : ω)
  deriving DecidableEq, Repr

/-- `flushLast` reports the current element too. -/
inductive Act (κ ω : Type u) where
  | mark (kind : κ)
  | flush (kind : κ)
  | flushLast (kind : κ)
  | note (note : ω)
  | advance (n : ℕ)
  deriving DecidableEq, Repr

/-- After an element the parser goes on, stops at the element, stops behind it, or is undefined. -/
inductive Control where
  | next
  | error
  | exit
  | fault
  deriving DecidableEq, Repr

structure Reaction (σ κ ω : Type u) where
  state : σ
  acts : List (Act κ ω)
  control : Control
  deriving DecidableEq, Repr

/-- `step` is told how many elements are left, the current one included. `resume` is what is marked
at the beginning of a buffer, `active` what has been marked when the last buffer is not over. -/
structure Machine (σ α κ ω : Type u) where
  step : σ → α → ℕ → Reaction σ κ ω
  active : σ → Option κ
  resume : σ → Option κ
  kinds : σ → List κ

/-! ## Joining reports -/

section Join
variable [DecidableEq κ]

def push : Report α κ ω → List (Report α κ ω) → List (Report α κ ω)
  | .data k s, .data k' t :: l =>
    if k = k' then .data k (s ++ t) :: l else .data k s :: .data k' t :: l
  | r, l => r :: l

def join (l : List (Report α κ ω)) : List (Report α κ ω) := l.foldr push []

/-- Joined with whatever follows them, the reports are the same. -/
def Same (l m : List (Report α κ ω)) : Prop :=
  ∀ post : List (Report α κ ω), join (l ++ post) = join (m ++ post)

theorem join_cons (r : Report α κ ω) (l : List (Report α κ ω)) : join (r :: l) = push r (join l) :=
  rfl

theorem join_append (l m : List (Report α κ ω)) : join (l ++ m) = l.foldr push (join m) :=
  List.foldr_append

theorem push_push (k : κ) (s t : List α) (l : List (Report α κ ω)) :
    push (.data k s) (push (.data k t) l) = push (.data k (s ++ t)) l := by
  cases l with
  | nil => simp [push]
  | cons r l =>
    cases r with
    | note o => simp [push]
    | data k' u =>
      by_cases h : k = k'
      · subst k'
        simp [push]
      · simp [push, h]

namespace Same

variable {l m n l' m' : List (Report α κ ω)}

theorem join_eq (h : Same l m) : join l = join m := by simpa using h []

theorem refl (l : List (Report α κ ω)) : Same l l := fun _ => rfl

theorem symm (h : Same l m) : Same m l := fun post => (h post).symm

theorem trans (h : Same l m) (h' : Same m n) : Same l n := fun post => (h post).trans (h' post)

theorem append (h : Same l m) (h' : Same l' m') : Same (l ++ l') (m ++ m') := by
  intro post
  rw [List.append_assoc, List.append_assoc, h (l' ++ post), join_append, h' post, ← join_append]

theorem merge (k : κ) (s t : List α) :
    Same ([.data k s, .data k t] : List (Report α κ ω)) [.data k (s ++ t)] := by
  intro post
  exact push_push k s t (join post)

theorem empty (k : κ) (s : List α) :
    Same ([.data k s, .data k []] : List (Report α κ ω)) [.data k s] := by
  intro post
  have hpush := push_push k s [] (join post)
  rwa [List.append_nil] at hpush

/-- A slice that grows by one element. -/
theorem grow {k : κ} {s : List α} (x : α) (h : Same (l ++ [.data k s]) m) :
    Same (l ++ [.data k (s ++ [x])]) (m ++ [.data k [x]]) := by
  have hmerge : Same (l ++ [.data k (s ++ [x])]) (l ++ [.data k s, .data k [x]]) :=
    (refl l).append (merge k s [x]).symm
  have hgrow := h.append (refl [.data k [x]])
  rw [List.append_assoc] at hgrow
  exact hmerge.trans hgrow

end Same

end Join

/-! ## A buffer -/

structure Tape (α κ ω : Type u) where
  p : ℕ
  marks : κ → Option ℕ
  reports : List (Report α κ ω)

def slice (data : List α) (p q : ℕ) : List α := (data.take q).drop p

section Run
variable [DecidableEq κ]

def Tape.flush (data : List α) (t : Tape α κ ω) (k : κ) (q : ℕ) : Tape α κ ω :=
  match t.marks k with
  | none => t
  | some p =>
    { t with
      marks := Function.update t.marks k none
      reports := t.reports ++ [.data k (slice data p q)] }

def Tape.act (data : List α) (t : Tape α κ ω) : Act κ ω → Tape α κ ω
  | .mark k =>
    if t.marks k = none then { t with marks := Function.update t.marks k (some t.p) } else t
  | .flush k => t.flush data k t.p
  | .flushLast k => t.flush data k (t.p + 1)
  | .note o => { t with reports := t.reports ++ [.note o] }
  | .advance n => { t with p := t.p + n }

def Tape.perform (data : List α) (t : Tape α κ ω) (acts : List (Act κ ω)) : Tape α κ ω :=
  acts.foldl (Tape.act data) t

/-- `ending` is `next` when the whole buffer was read. -/
structure Result (σ α κ ω : Type u) where
  state : σ
  reports : List (Report α κ ω)
  consumed : ℕ
  ending : Control
  deriving DecidableEq, Repr

namespace Machine

variable (m : Machine σ α κ ω) (data : List α)

/-- At the end of the buffer. More than one mark there is a failed assertion. -/
def leftover (s : σ) (t : Tape α κ ω) : Result σ α κ ω :=
  if (m.kinds s).countP (fun k => (t.marks k).isSome) ≤ 1 then
    ⟨s, (t.perform data ((m.kinds s).map .flush)).reports, t.p, .next⟩
  else ⟨s, t.reports, t.p, .fault⟩

/-- `skip` elements have been advanced over. -/
def run : List α → ℕ → σ → Tape α κ ω → Result σ α κ ω
  | [], _, s, t => m.leftover data s t
  | _ :: rest, skip + 1, s, t => run rest skip s t
  | x :: rest, 0, s, t =>
    let r := m.step s x (rest.length + 1)
    let t' := t.perform data r.acts
    match r.control with
    | .next => run rest (t'.p - t.p) r.state { t' with p := t'.p + 1 }
    | .error => ⟨r.state, t'.reports, t'.p, .error⟩
    | .exit => ⟨r.state, t'.reports, t'.p + 1, .exit⟩
    | .fault => ⟨r.state, t'.reports, t'.p, .fault⟩

def execute (s : σ) (data : List α) : Result σ α κ ω :=
  m.run data data 0 s ⟨0, fun k => if m.resume s = some k then some 0 else none, []⟩

end Machine

/-! ## One element at a time -/

/-- What the acts on `x` report when `x` is a buffer of its own, and what they leave marked. -/
def emit (x : α) : Option κ → List (Act κ ω) → List (Report α κ ω) × Option κ
  | a, [] => ([], a)
  | _, .mark k :: acts => (emit x (some k) acts).map (.data k [] :: ·) id
  | _, .flush _ :: acts => emit x none acts
  | _, .flushLast k :: acts => (emit x none acts).map (.data k [x] :: ·) id
  | a, .note o :: acts => (emit x a acts).map (.note o :: ·) id
  | a, .advance _ :: acts => emit x a acts

/-- What is marked after the acts, unless they mark a second slice, flush what is not marked, or put
a note into a slice. -/
def follow : Option κ → List (Act κ ω) → Option (Option κ)
  | a, [] => some a
  | a, .mark k :: acts => if a = none ∨ a = some k then follow (some k) acts else none
  | a, .flush k :: acts => if a = some k then follow none acts else none
  | a, .flushLast k :: acts => if a = some k then follow none acts else none
  | a, .note _ :: acts => if a = none then follow none acts else none
  | a, .advance n :: acts => if n = 0 then follow a acts else none

theorem follow_append (a : Option κ) (l m : List (Act κ ω)) :
    follow a (l ++ m) = (follow a l).bind (follow · m) := by
  induction l generalizing a with
  | nil => rfl
  | cons c l ih =>
    rw [List.cons_append]
    cases c <;> simp only [follow, ih] <;> split <;> rfl

omit [DecidableEq κ] in
theorem emit_append (x : α) (a : Option κ) (l m : List (Act κ ω)) : emit x a (l ++ m) =
    ((emit x a l).1 ++ (emit x (emit x a l).2 m).1, (emit x (emit x a l).2 m).2) := by
  induction l generalizing a with
  | nil => rfl
  | cons c l ih =>
    rw [List.cons_append]
    cases c <;> simp only [emit, ih] <;> rfl

def starts (a : Option κ) : List (Report α κ ω) := a.toList.map (.data · [])

def ends (x : α) (a : Option κ) : List (Report α κ ω) := a.toList.map (.data · [x])

namespace Machine

def stepReports (m : Machine σ α κ ω) (s : σ) (x : α) : List (Report α κ ω) :=
  let r := m.step s x 1
  let acts := emit x (m.active s) r.acts
  starts (m.resume s) ++ (acts.1 ++ if r.control = .next then ends x acts.2 else [])

def trace (m : Machine σ α κ ω) (s : σ) : List α → Result σ α κ ω
  | [] => ⟨s, [], 0, .next⟩
  | x :: rest =>
    let r := m.step s x 1
    match r.control with
    | .next =>
      let t := trace m r.state rest
      { t with reports := m.stepReports s x ++ t.reports, consumed := t.consumed + 1 }
    | .exit => ⟨r.state, m.stepReports s x, 1, .exit⟩
    | .error => ⟨r.state, m.stepReports s x, 0, .error⟩
    | .fault => ⟨r.state, m.stepReports s x, 0, .fault⟩

/-- At most one slice is marked at a time. A buffer that begins inside of a slice marks it, or its
first element does, as where a slice may begin. -/
structure Lawful (m : Machine σ α κ ω) : Prop where
  next : ∀ (s : σ) (x : α), (m.step s x 1).control = .next →
    follow (m.active s) (m.step s x 1).acts = some (m.active (m.step s x 1).state) ∨
      follow (m.active s) (m.step s x 1).acts = some none ∧ m.resume (m.step s x 1).state = none
  exit : ∀ (s : σ) (x : α), (m.step s x 1).control = .exit →
    follow (m.active s) (m.step s x 1).acts = some none
  stop : ∀ (s : σ) (x : α), (follow (m.active s) (m.step s x 1).acts).isSome
  resume : ∀ (s : σ) (x : α), m.resume s = m.active s ∨ m.resume s = none ∧
    ∃ k : κ, m.active s = some k ∧ ((∃ acts, (m.step s x 1).acts = .mark k :: acts) ∨
      (∃ acts, (m.step s x 1).acts = .flush k :: acts) ∨
      (m.step s x 1).acts = [] ∧ (m.step s x 1).control ≠ .next)
  kinds : ∀ (s : σ) (k : κ), m.active s = some k → k ∈ m.kinds s
  distinct : ∀ s : σ, (m.kinds s).Nodup

end Machine

/-! ## Buffers and single elements -/

section Tape

variable {data : List α} {t : Tape α κ ω} {a a' : Option κ} {out : List (Report α κ ω)} {x : α}

theorem slice_self (p : ℕ) : slice data p p = [] := by
  simp [slice]

theorem slice_succ {p q : ℕ} (h : p ≤ q) (hx : data[q]? = some x) :
    slice data p (q + 1) = slice data p q ++ [x] := by
  obtain ⟨hq, hget⟩ := List.getElem?_eq_some_iff.mp hx
  rw [slice, slice, List.take_succ_eq_append_getElem hq, hget,
    List.drop_append_of_le_length (by simp; omega)]

namespace Tape

def pending (data : List α) (t : Tape α κ ω) (a : Option κ) : List (Report α κ ω) :=
  (a.bind fun k => (t.marks k).map fun p => Report.data k (slice data p t.p)).toList

/-- Nothing but `a` is marked, and with it the tape has reported `out`. -/
structure Reads (data : List α) (t : Tape α κ ω) (a : Option κ) (out : List (Report α κ ω)) :
    Prop where
  only : ∀ (k : κ) (q : ℕ), t.marks k = some q → a = some k ∧ q ≤ t.p
  same : Same (t.reports ++ t.pending data a) out

def Live (t : Tape α κ ω) (a : Option κ) : Prop := ∀ k : κ, a = some k → t.marks k ≠ none

namespace Reads

variable {k : κ} (h : t.Reads data a out)
include h

theorem unmarked (dead : a = none) (k : κ) : t.marks k = none := by
  by_contra hne
  obtain ⟨q, hq⟩ := Option.ne_none_iff_exists'.mp hne
  have := (h.only k q hq).1
  simp [dead] at this

theorem other {k' : κ} (ha : a = some k) (hne : k' ≠ k) : t.marks k' = none := by
  by_contra hmarked
  obtain ⟨q, hq⟩ := Option.ne_none_iff_exists'.mp hmarked
  have := (h.only k' q hq).1
  rw [ha, Option.some.injEq] at this
  exact hne this.symm

theorem marked (live : t.Live a) (ha : a = some k) : ∃ q : ℕ, t.marks k = some q ∧ q ≤ t.p ∧
    Same (t.reports ++ [.data k (slice data q t.p)]) out := by
  obtain ⟨q, hq⟩ := Option.ne_none_iff_exists'.mp (live k ha)
  refine ⟨q, hq, (h.only k q hq).2, ?_⟩
  have hsame := h.same
  rw [pending, ha, Option.bind_some, hq] at hsame
  exact hsame

theorem quiet (dead : a = none) : Same t.reports out := by
  have hsame := h.same
  rw [pending, dead, Option.bind_none, Option.toList_none, List.append_nil] at hsame
  exact hsame

theorem lost (ha : a = some k) (hk : t.marks k = none) : t.Reads data none out := by
  refine ⟨fun k' q hq => ?_, ?_⟩
  · by_cases hne : k' = k
    · simp [hne, hk] at hq
    · simp [h.other ha hne] at hq
  · have hsame := h.same
    rw [pending, ha, Option.bind_some, hk, Option.map_none, Option.toList_none] at hsame
    exact hsame

theorem activate (dead : a = none) (a' : Option κ) : t.Reads data a' out := by
  refine ⟨fun k q hq => ?_, ?_⟩
  · simp [h.unmarked dead k] at hq
  · have hpending : t.pending data a' = [] := by
      cases a' with
      | none => rfl
      | some k => simp [pending, h.unmarked dead k]
    rw [hpending, List.append_nil]
    exact h.quiet dead

theorem mark (live : t.Live a) (free : a = none ∨ a = some k) :
    (t.act data (.mark k)).Reads data (some k) (out ++ [.data k []]) ∧
      (t.act data (.mark k)).Live (some k) := by
  rcases free with ha | ha
  · have hnone := h.unmarked ha
    have hact : t.act data (.mark k) =
        { t with marks := Function.update t.marks k (some t.p) } := if_pos (hnone k)
    rw [hact]
    refine ⟨⟨fun k' q hq => ?_, ?_⟩, fun k' hk' => ?_⟩
    · by_cases hk : k' = k
      · subst k'
        simp only [Function.update_self, Option.some.injEq] at hq
        exact ⟨rfl, hq ▸ Nat.le_refl _⟩
      · simp [Function.update_of_ne hk, hnone k'] at hq
    · simpa [pending, slice_self] using (h.quiet ha).append (Same.refl [.data k []])
    · simp [Option.some.inj hk']
  · obtain ⟨q, hq, hle, hsame⟩ := h.marked live ha
    have hact : t.act data (.mark k) = t := if_neg (by simp [hq])
    rw [hact]
    refine ⟨⟨fun k' q' hq' => ha ▸ h.only k' q' hq', ?_⟩, ha ▸ live⟩
    have hmerge : Same (t.reports ++ [.data k (slice data q t.p)])
        (t.reports ++ [.data k (slice data q t.p), .data k []]) :=
      (Same.refl t.reports).append (Same.empty k (slice data q t.p)).symm
    have hout := hsame.append (Same.refl [.data k []])
    rw [List.append_assoc] at hout
    simpa [pending, hq] using hmerge.trans hout

theorem flushed {q : ℕ} {out' : List (Report α κ ω)} (ha : a = some k)
    (live : t.Live a) (same : ∀ p : ℕ, t.marks k = some p →
      Same (t.reports ++ [.data k (slice data p q)]) out') :
    (t.flush data k q).Reads data none out' ∧ (t.flush data k q).Live none := by
  obtain ⟨p, hp, -, -⟩ := h.marked live ha
  refine ⟨⟨fun k' q' hq' => ?_, ?_⟩, fun k' hk' => by simp at hk'⟩
  · simp only [flush, hp] at hq'
    by_cases hk : k' = k
    · simp [hk] at hq'
    · simp [Function.update_of_ne hk, h.other ha hk] at hq'
  · simpa [flush, hp, pending] using same p hp

theorem note (dead : a = none) (o : ω) :
    (t.act data (.note o)).Reads data none (out ++ [.note o]) := by
  refine ⟨fun k q hq => ?_, ?_⟩
  · have := h.unmarked dead k
    simp [act, this] at hq
  · simpa [act, pending] using (h.quiet dead).append (Same.refl [.note o])

end Reads

omit [DecidableEq κ] in
theorem Live.dead : t.Live none := fun k hk => by simp at hk

theorem perform_cons (c : Act κ ω) (acts : List (Act κ ω)) :
    t.perform data (c :: acts) = (t.act data c).perform data acts := rfl

theorem flush_p (k : κ) (q : ℕ) : (t.flush data k q).p = t.p := by
  rw [flush]
  split <;> rfl

theorem act_p {c : Act κ ω} (single : ∀ n : ℕ, c = .advance n → n = 0) :
    (t.act data c).p = t.p := by
  cases c with
  | mark k =>
    rw [act]
    split <;> rfl
  | flush k | flushLast k => exact flush_p k _
  | note o => rfl
  | advance n => simp [act, single n rfl]

theorem Reads.perform (h : t.Reads data a out) (live : t.Live a) (hx : data[t.p]? = some x)
    {acts : List (Act κ ω)} (hf : follow a acts = some a') :
    (t.perform data acts).Reads data a' (out ++ (emit x a acts).1) ∧
      (t.perform data acts).Live a' ∧ (t.perform data acts).p = t.p ∧ (emit x a acts).2 = a' := by
  induction acts generalizing t a out with
  | nil =>
    obtain rfl : a = a' := by simpa [follow] using hf
    exact ⟨by simpa [perform, emit] using h, live, rfl, rfl⟩
  | cons c acts ih =>
    rw [perform_cons]
    cases c with
    | mark k =>
      simp only [follow, Option.ite_none_right_eq_some] at hf
      obtain ⟨hreads, hlive⟩ := h.mark live hf.1
      have hp : (t.act data (.mark k)).p = t.p := act_p fun n hn => by simp at hn
      have hrest := ih hreads hlive (hp.symm ▸ hx) hf.2
      rw [hp, List.append_assoc] at hrest
      exact hrest
    | flush k =>
      simp only [follow, Option.ite_none_right_eq_some] at hf
      obtain ⟨hreads, hlive⟩ := h.flushed (q := t.p) hf.1 live fun p hp => by
        obtain ⟨p', hp', -, hsame⟩ := h.marked live hf.1
        rw [hp, Option.some.injEq] at hp'
        exact hp' ▸ hsame
      have hp : (t.flush data k t.p).p = t.p := flush_p k _
      have hrest := ih hreads hlive (hp.symm ▸ hx) hf.2
      rw [hp] at hrest
      exact hrest
    | flushLast k =>
      simp only [follow, Option.ite_none_right_eq_some] at hf
      have hflushed : (t.flush data k (t.p + 1)).Reads data none (out ++ [.data k [x]]) ∧
          (t.flush data k (t.p + 1)).Live none :=
        h.flushed hf.1 live fun p hp => by
          obtain ⟨p', hp', hle, hsame⟩ := h.marked live hf.1
          rw [hp, Option.some.injEq] at hp'
          rw [slice_succ (hp' ▸ hle) hx]
          exact (hp' ▸ hsame).grow x
      obtain ⟨hreads, hlive⟩ := hflushed
      have hp : (t.flush data k (t.p + 1)).p = t.p := flush_p k _
      have hrest := ih hreads hlive (hp.symm ▸ hx) hf.2
      rw [hp, List.append_assoc] at hrest
      exact hrest
    | note o =>
      simp only [follow, Option.ite_none_right_eq_some] at hf
      obtain ⟨rfl, hf⟩ := hf
      have hrest := ih (h.note rfl o) Live.dead hx hf
      rw [List.append_assoc] at hrest
      exact hrest
    | advance n =>
      simp only [follow, Option.ite_none_right_eq_some] at hf
      obtain ⟨rfl, hf⟩ := hf
      exact ih h live hx hf

/-- What is marked at the end of the buffer is reported. -/
theorem Reads.leftover (h : t.Reads data a out) {ks : List κ} (ha : ∀ k : κ, a = some k → k ∈ ks) :
    Same (t.perform data (ks.map .flush)).reports out := by
  induction ks generalizing t a with
  | nil =>
    refine h.quiet ?_
    cases a with
    | none => rfl
    | some k => simpa using ha k rfl
  | cons k ks ih =>
    rw [List.map_cons, perform_cons]
    rcases hk : t.marks k with _ | q
    · have hact : t.act data (.flush k) = t := by simp [act, flush, hk]
      rw [hact]
      by_cases hak : a = some k
      · exact ih (h.lost hak hk) fun k' hk' => by simp at hk'
      · refine ih h fun k' hk' => ?_
        rcases List.mem_cons.mp (ha k' hk') with rfl | hmem
        · exact absurd hk' hak
        · exact hmem
    · have hak := (h.only k q hk).1
      have hlive : t.Live a := fun k' hk' => by
        rw [hak, Option.some.injEq] at hk'
        simp [← hk', hk]
      obtain ⟨hreads, -⟩ := h.flushed (q := t.p) hak hlive fun p hp => by
        obtain ⟨p', hp', -, hsame⟩ := h.marked hlive hak
        rw [hp, Option.some.injEq] at hp'
        exact hp' ▸ hsame
      exact ih hreads fun k' hk' => by simp at hk'

theorem Reads.one_mark (h : t.Reads data a out) {ks : List κ} (distinct : ks.Nodup) :
    ks.countP (fun k => (t.marks k).isSome) ≤ 1 := by
  rcases a with _ | k
  · have hnone : ks.countP (fun k => (t.marks k).isSome) = 0 :=
      List.countP_eq_zero.mpr fun k _ => by simp [h.unmarked rfl k]
    omega
  · have hmono : ks.countP (fun k => (t.marks k).isSome) ≤ ks.count k := by
      refine List.countP_mono_left fun k' _ hmarked => ?_
      obtain ⟨q, hq⟩ := Option.isSome_iff_exists.mp hmarked
      exact beq_iff_eq.mpr (Option.some.inj (h.only k' q hq).1).symm
    exact Nat.le_trans hmono (List.nodup_iff_count.mp distinct k)

theorem Reads.take (h : t.Reads data a out) (live : t.Live a) (hx : data[t.p]? = some x) :
    Reads data { t with p := t.p + 1 } a (out ++ ends x a) := by
  refine ⟨fun k q hq => ⟨(h.only k q hq).1, Nat.le_succ_of_le (h.only k q hq).2⟩, ?_⟩
  cases a with
  | none => simpa [pending, ends] using h.quiet rfl
  | some k =>
    obtain ⟨q, hq, hle, hsame⟩ := h.marked live rfl
    simpa [pending, ends, hq, slice_succ hle hx] using hsame.grow x

end Tape

end Tape

/-! ## The main result on buffers -/

namespace Machine

variable {m : Machine σ α κ ω} {data : List α} {s : σ} {t : Tape α κ ω}
  {out : List (Report α κ ω)} {x : α}

def single (m : Machine σ α κ ω) : Machine σ α κ ω := { m with step := fun s x _ => m.step s x 1 }

def Ready (m : Machine σ α κ ω) (s : σ) (t : Tape α κ ω) : Prop :=
  ∀ k : κ, m.active s = some k → t.marks k = none → m.resume s = none

/-- The acts of one step; a buffer that begins within a slice marks it at once. -/
theorem Lawful.perform (lawful : m.Lawful) (h : t.Reads data (m.active s) out) (ready : m.Ready s t)
    (hx : data[t.p]? = some x) {a' : Option κ}
    (hf : follow (m.active s) (m.step s x 1).acts = some a') :
    (t.perform data (m.step s x 1).acts).Reads data a'
        (out ++ (emit x (m.active s) (m.step s x 1).acts).1) ∧
      ((m.step s x 1).control = .next → (t.perform data (m.step s x 1).acts).Live a') ∧
      (t.perform data (m.step s x 1).acts).p = t.p ∧
      (emit x (m.active s) (m.step s x 1).acts).2 = a' := by
  by_cases live : t.Live (m.active s)
  · obtain ⟨hreads, hlive, hp, he⟩ := h.perform live hx hf
    exact ⟨hreads, fun _ => hlive, hp, he⟩
  · simp only [Tape.Live, not_forall, not_not] at live
    obtain ⟨k, hk, hmark⟩ := live
    have hresume := ready k hk hmark
    rcases lawful.resume s x with heq | ⟨-, k', hk', hacts⟩
    · rw [heq, hk] at hresume
      simp at hresume
    · obtain rfl : k = k' := by simpa [hk] using hk'
      have hlost := h.lost hk hmark
      rcases hacts with ⟨acts, hacts⟩ | ⟨acts, hacts⟩ | ⟨hacts, hcontrol⟩
      · rw [hacts, hk] at hf ⊢
        have hf' : follow none (.mark k :: acts) = some a' := by
          simpa [follow] using hf
        obtain ⟨hreads, hlive, hp, he⟩ := hlost.perform Tape.Live.dead hx hf'
        exact ⟨hreads, fun _ => hlive, hp, he⟩
      · rw [hacts, hk] at hf ⊢
        have hf' : follow none acts = some a' := by simpa [follow] using hf
        obtain ⟨hreads, hlive, hp, he⟩ := hlost.perform Tape.Live.dead hx hf'
        have hflush : t.perform data (.flush k :: acts) = t.perform data acts := by
          rw [Tape.perform_cons]
          simp [Tape.act, Tape.flush, hmark]
        rw [hflush]
        exact ⟨hreads, fun _ => hlive, hp, he⟩
      · rw [hacts, hk] at hf ⊢
        obtain rfl : some k = a' := by simpa [follow] using hf
        refine ⟨?_, fun hnext => absurd hnext hcontrol, rfl, rfl⟩
        rw [← hk]
        simpa [Tape.perform, emit] using h

theorem Lawful.starts (lawful : m.Lawful) (h : t.Reads data (m.active s) out) (ready : m.Ready s t)
    (x : α) : Same (out ++ starts (m.resume s)) out := by
  rcases hresume : m.resume s with _ | k
  · simpa [Slices.starts] using Same.refl out
  · have hactive : m.active s = some k := by
      rcases lawful.resume s x with heq | ⟨hnone, -⟩
      · rw [← heq, hresume]
      · simp [hresume] at hnone
    have hlive : t.Live (m.active s) := by
      intro k' hk' hnone
      have := ready k' hk' hnone
      simp [hresume] at this
    obtain ⟨q, -, -, hsame⟩ := h.marked hlive hactive
    have hmerge := (Same.refl t.reports).append (Same.empty k (slice data q t.p))
    have hmore := hsame.append (Same.refl [.data k []])
    rw [List.append_assoc] at hmore
    exact hmore.symm.trans (hmerge.trans hsame)

/-- The data that is still marked when the parser stops at an element is never reported. -/
def Lost (ending : Control) (tail : List (Report α κ ω)) : Prop :=
  tail = [] ∨ (ending = .error ∨ ending = .fault) ∧ ∃ (k : κ) (l : List α), tail = [.data k l]

theorem stopped_reads {a : Option κ} (h : t.Reads data a out) {ending : Control}
    (stopped : a = none ∨ ending = .error ∨ ending = .fault) :
    ∃ tail, Lost ending tail ∧ Same (t.reports ++ tail) out := by
  refine ⟨t.pending data a, ?_, h.same⟩
  rcases a with _ | k
  · exact Or.inl rfl
  · rcases hk : t.marks k with _ | q
    · exact Or.inl (by simp [Tape.pending, hk])
    · have hstopped : ending = .error ∨ ending = .fault := by simpa using stopped
      exact Or.inr ⟨hstopped, k, slice data q t.p, by simp [Tape.pending, hk]⟩

theorem run_single_cons (m : Machine σ α κ ω) (rest : List α) :
    m.single.run data (x :: rest) 0 s t =
      let t' := t.perform data (m.step s x 1).acts
      match (m.step s x 1).control with
      | .next => m.single.run data rest (t'.p - t.p) (m.step s x 1).state { t' with p := t'.p + 1 }
      | .error => ⟨(m.step s x 1).state, t'.reports, t'.p, .error⟩
      | .exit => ⟨(m.step s x 1).state, t'.reports, t'.p + 1, .exit⟩
      | .fault => ⟨(m.step s x 1).state, t'.reports, t'.p, .fault⟩ := rfl

/-- By induction on the rest of the buffer; the invariant is `Reads`, with which the tape has
reported what the trace has. -/
theorem Lawful.run_single (lawful : m.Lawful) {rest : List α} (hrest : data.drop t.p = rest)
    (h : t.Reads data (m.active s) out) (ready : m.Ready s t) :
    (m.single.run data rest 0 s t).state = (m.trace s rest).state ∧
      (m.single.run data rest 0 s t).consumed = t.p + (m.trace s rest).consumed ∧
      (m.single.run data rest 0 s t).ending = (m.trace s rest).ending ∧
      ∃ tail, Lost (m.trace s rest).ending tail ∧
        Same ((m.single.run data rest 0 s t).reports ++ tail)
          (out ++ (m.trace s rest).reports) := by
  induction rest generalizing s t out with
  | nil =>
    have hleft : Same (t.perform data ((m.kinds s).map .flush)).reports out :=
      h.leftover fun k hk => lawful.kinds s k hk
    have hone : (m.single.kinds s).countP (fun k => (t.marks k).isSome) ≤ 1 :=
      h.one_mark (lawful.distinct s)
    rw [run, leftover, if_pos hone]
    refine ⟨rfl, rfl, rfl, [], Or.inl rfl, ?_⟩
    simpa [trace, single] using hleft
  | cons x rest ih =>
    have hx : data[t.p]? = some x := by
      have := congrArg List.head? hrest
      simpa [List.head?_drop] using this
    have hstarts := lawful.starts h ready x
    obtain ⟨a', hf⟩ := Option.isSome_iff_exists.mp (lawful.stop s x)
    obtain ⟨hreads, hlive, hp, he⟩ := lawful.perform h ready hx hf
    have hout (l : List (Report α κ ω)) :
        Same (out ++ l) (out ++ (Slices.starts (m.resume s) ++ l)) := by
      rw [← List.append_assoc]
      exact hstarts.symm.append (Same.refl l)
    have hstopped {ending : Control} (hc : (m.step s x 1).control ≠ .next)
        (stopped : a' = none ∨ ending = .error ∨ ending = .fault) :
        ∃ tail, Lost ending tail ∧ Same ((t.perform data (m.step s x 1).acts).reports ++ tail)
          (out ++ m.stepReports s x) := by
      obtain ⟨tail, hlost, hsame⟩ := stopped_reads hreads stopped
      refine ⟨tail, hlost, hsame.trans ?_⟩
      rw [stepReports, if_neg hc, List.append_nil]
      exact hout _
    rw [run_single_cons, trace]
    rcases hc : (m.step s x 1).control with _ | _ | _ | _
    · simp only [hp, Nat.sub_self]
      have hx' : data[(t.perform data (m.step s x 1).acts).p]? = some x := by rwa [hp]
      have htake := hreads.take (hlive hc) hx'
      rw [hp] at htake
      have hnext : Tape.Reads data { t.perform data (m.step s x 1).acts with p := t.p + 1 }
            (m.active (m.step s x 1).state)
            (out ++ (emit x (m.active s) (m.step s x 1).acts).1 ++ ends x a') ∧
          m.Ready (m.step s x 1).state
            { t.perform data (m.step s x 1).acts with p := t.p + 1 } := by
        have hlaw := lawful.next s x hc
        rw [hf, Option.some.injEq, Option.some.injEq] at hlaw
        rcases hlaw with rfl | ⟨rfl, hresume⟩
        · exact ⟨htake, fun k hk hnone => absurd hnone (hlive hc k hk)⟩
        · exact ⟨htake.activate rfl _, fun _ _ _ => hresume⟩
      have hdrop : data.drop (t.p + 1) = rest := by
        rw [← List.drop_drop, hrest]
        rfl
      obtain ⟨hstate, hconsumed, hending, tail, hlost, hsame⟩ := ih hdrop hnext.1 hnext.2
      refine ⟨hstate, hconsumed.trans (by dsimp only; omega), hending, tail, hlost, hsame.trans ?_⟩
      rw [stepReports, if_pos hc, he]
      simpa only [List.append_assoc] using hout _
    · exact ⟨rfl, hp, rfl, hstopped (by simp [hc]) (Or.inr (Or.inl rfl))⟩
    · refine ⟨rfl, congrArg (· + 1) hp, rfl, hstopped (by simp [hc]) (Or.inl ?_)⟩
      have := lawful.exit s x hc
      rwa [hf, Option.some.injEq] at this
    · exact ⟨rfl, hp, rfl, hstopped (by simp [hc]) (Or.inr (Or.inr rfl))⟩

omit [DecidableEq κ] in
theorem trace_starts (m : Machine σ α κ ω) (s : σ) (x : α) (rest : List α) :
    ∃ l, (m.trace s (x :: rest)).reports = Slices.starts (m.resume s) ++ l := by
  simp only [trace]
  rcases (m.step s x 1).control with _ | _ | _ | _
  · exact ⟨_, by simp only [stepReports, List.append_assoc]; rfl⟩
  · exact ⟨_, rfl⟩
  · exact ⟨_, rfl⟩
  · exact ⟨_, rfl⟩

/-- A buffer read one element at a time reports the slices of the trace, but for the last one where
the parser stops in it. -/
theorem Lawful.execute_single (lawful : m.Lawful) (nonempty : data ≠ []) :
    (m.single.execute s data).state = (m.trace s data).state ∧
      (m.single.execute s data).consumed = (m.trace s data).consumed ∧
      (m.single.execute s data).ending = (m.trace s data).ending ∧
      ∃ tail, Lost (m.trace s data).ending tail ∧
        Same ((m.single.execute s data).reports ++ tail) (m.trace s data).reports := by
  obtain ⟨x, rest, rfl⟩ := List.exists_cons_of_ne_nil nonempty
  let t : Tape α κ ω := ⟨0, fun k => if m.resume s = some k then some 0 else none, []⟩
  have hactive {k : κ} (hk : m.resume s = some k) : m.active s = some k := by
    rcases lawful.resume s x with heq | ⟨hnone, -⟩
    · rw [← heq, hk]
    · simp [hk] at hnone
  have hreads : t.Reads (x :: rest) (m.active s) (Slices.starts (m.resume s)) := by
    refine ⟨fun k q hq => ?_, ?_⟩
    · by_cases hk : m.resume s = some k
      · simp only [t, if_pos hk, Option.some.injEq] at hq
        exact ⟨hactive hk, hq ▸ Nat.le_refl _⟩
      · simp [t, hk] at hq
    · rcases hk : m.resume s with _ | k
      · have hmarks : t.pending (x :: rest) (m.active s) = [] := by
          simp [Tape.pending, t, hk]
        rw [hmarks]
        exact Same.refl _
      · have hmarks : t.pending (x :: rest) (m.active s) = [.data k []] := by
          simp [Tape.pending, t, hk, hactive hk, slice]
        rw [hmarks]
        exact Same.refl _
  have hready : m.Ready s t := by
    intro k hk hnone
    by_contra hne
    obtain ⟨k', hk'⟩ := Option.ne_none_iff_exists'.mp hne
    obtain rfl : k = k' := by simpa [hk] using hactive hk'
    simp [t, hk'] at hnone
  obtain ⟨hstate, hconsumed, hending, tail, hlost, hsame⟩ := lawful.run_single rfl hreads hready
  refine ⟨hstate, hconsumed.trans (Nat.zero_add _), hending, tail, hlost, hsame.trans ?_⟩
  have htwice : Same (Slices.starts (m.resume s) ++ Slices.starts (m.resume s))
      (Slices.starts (m.resume s) : List (Report α κ ω)) := by
    rcases m.resume s with _ | k
    · exact Same.refl []
    · exact Same.merge k [] []
  obtain ⟨l, hl⟩ := m.trace_starts s x rest
  show Same (Slices.starts (m.resume s) ++ (m.trace s (x :: rest)).reports) _
  rw [hl, ← List.append_assoc]
  exact htwice.append (Same.refl l)

/-! ## Several elements at once -/

/-- A step over several elements does what single steps would do one after the other. -/
def Bulk (m : Machine σ α κ ω) : Prop :=
  ∀ (s : σ) (x y : α) (n : ℕ), m.step s x (n + 2) = m.step s x 1 ∨
    (m.step s x 1).control = .next ∧ ∃ k : κ, (m.step s x 1).acts = [.mark k, .advance 0] ∧
      (m.step s x (n + 2)).state = (m.step (m.step s x 1).state y (n + 1)).state ∧
      (m.step s x (n + 2)).control = (m.step (m.step s x 1).state y (n + 1)).control ∧
      ∀ (data : List α) (t : Tape α κ ω), t.perform data (m.step s x (n + 2)).acts =
        (t.perform data [.mark k, .advance 1]).perform data
          (m.step (m.step s x 1).state y (n + 1)).acts

theorem le_perform (data : List α) (acts : List (Act κ ω)) (t : Tape α κ ω) :
    t.p ≤ (t.perform data acts).p := by
  induction acts generalizing t with
  | nil => exact Nat.le_refl _
  | cons c acts ih =>
    refine Nat.le_trans ?_ (ih _)
    cases c with
    | advance n => exact Nat.le_add_right _ _
    | mark k | flush k | flushLast k | note o =>
      exact Nat.le_of_eq (Tape.act_p fun n hn => by simp at hn).symm

theorem mark_advance (k : κ) (n : ℕ) (t : Tape α κ ω) :
    t.perform data [.mark k, .advance n] =
      { t.act data (.mark k) with p := t.p + n } := by
  have hp : (t.act data (.mark k)).p = t.p := Tape.act_p fun n hn => by simp at hn
  rw [← hp]
  rfl

theorem perform_append (l l' : List (Act κ ω)) :
    t.perform data (l ++ l') = (t.perform data l).perform data l' := List.foldl_append

theorem advance_advance (data : List α) (t : Tape α κ ω) (k : κ) (i j : ℕ) :
    t.perform data [.mark k, .advance (i + j)] =
      (t.perform data [.mark k, .advance i]).perform data [.mark k, .advance j] := by
  have hp : (t.act data (.mark k)).p = t.p := Tape.act_p fun n hn => by simp at hn
  have hmarked : ∃ q, (t.act data (.mark k)).marks k = some q := by
    rw [Tape.act]
    split
    · exact ⟨t.p, by simp⟩
    · next h => exact Option.ne_none_iff_exists'.mp h
  obtain ⟨q, hq⟩ := hmarked
  have hagain : Tape.act data { t.act data (.mark k) with p := t.p + i } (.mark k) =
      { t.act data (.mark k) with p := t.p + i } := by
    rw [Tape.act, if_neg (by simp [hq])]
  rw [mark_advance, mark_advance, mark_advance, hagain, Nat.add_assoc]

theorem Bulk.run_eq (bulk : m.Bulk) (rest : List α) (skip : ℕ) :
    m.run data rest skip s t = m.single.run data rest skip s t := by
  induction rest generalizing skip s t with
  | nil => rfl
  | cons x rest ih =>
    cases skip with
    | succ skip => exact ih skip
    | zero =>
      have hsame (h : m.step s x (rest.length + 1) = m.step s x 1) :
          m.run data (x :: rest) 0 s t = m.single.run data (x :: rest) 0 s t := by
        rw [run_single_cons, run, h]
        rcases (m.step s x 1).control with _ | _ | _ | _
        · exact ih _
        · rfl
        · rfl
        · rfl
      cases rest with
      | nil => exact hsame rfl
      | cons y rest =>
        rcases bulk s x y rest.length with heq | ⟨hnext, k, hacts, hstate, hcontrol, hperform⟩
        · exact hsame heq
        · have hstep : m.run data (x :: y :: rest) 0 s t =
              m.run data (y :: rest) 0 (m.step s x 1).state
                (t.perform data [.mark k, .advance 1]) := by
            rw [run, run]
            simp only [List.length_cons, hstate, hcontrol, hperform]
            rcases (m.step (m.step s x 1).state y (rest.length + 1)).control with _ | _ | _ | _
            · have hle := le_perform data
                (m.step (m.step s x 1).state y (rest.length + 1)).acts
                (t.perform data [.mark k, .advance 1])
              have hp : (t.perform data [.mark k, .advance 1]).p = t.p + 1 := by
                rw [mark_advance]
              rw [hp] at hle ⊢
              obtain ⟨j, hj⟩ := Nat.exists_eq_add_of_le hle
              simp only [hj]
              rw [show t.p + 1 + j - t.p = j + 1 from by omega,
                show t.p + 1 + j - (t.p + 1) = j from by omega, run]
            · rfl
            · rfl
            · rfl
          rw [hstep, ih, run_single_cons (x := x) m (y :: rest)]
          simp only [hnext, hacts, mark_advance]
          simp

theorem Bulk.execute_eq (bulk : m.Bulk) (s : σ) (data : List α) :
    m.execute s data = m.single.execute s data :=
  bulk.run_eq data 0

/-! ## Cuts -/

def feed (m : Machine σ α κ ω) (s : σ) : List (List α) → Result σ α κ ω
  | [] => ⟨s, [], 0, .next⟩
  | d :: ds =>
    let r := m.execute s d
    match r.ending with
    | .next =>
      let f := feed m r.state ds
      { f with reports := r.reports ++ f.reports, consumed := r.consumed + f.consumed }
    | .error | .exit | .fault => r

theorem feed_singleton (m : Machine σ α κ ω) (s : σ) (d : List α) :
    m.feed s [d] = m.execute s d := by
  rw [feed]
  rcases hr : m.execute s d with ⟨state, reports, consumed, ending⟩
  cases ending <;> simp [feed]

omit [DecidableEq κ] in
theorem trace_append (m : Machine σ α κ ω) (s : σ) (l l' : List α) : m.trace s (l ++ l') =
    match (m.trace s l).ending with
    | .next =>
      let f := m.trace (m.trace s l).state l'
      { f with
        reports := (m.trace s l).reports ++ f.reports
        consumed := (m.trace s l).consumed + f.consumed }
    | .error | .exit | .fault => m.trace s l := by
  induction l generalizing s with
  | nil => simp [trace]
  | cons x l ih =>
    rw [List.cons_append, trace, trace]
    rcases (m.step s x 1).control with _ | _ | _ | _
    · simp only [ih]
      rcases hl : (m.trace (m.step s x 1).state l).ending with _ | _ | _ | _
      · simp only [List.append_assoc, Nat.add_right_comm]
      · simp only [hl]
      · simp only [hl]
      · simp only [hl]
    · rfl
    · rfl
    · rfl

omit [DecidableEq κ] in
theorem trace_consumed (m : Machine σ α κ ω) (s : σ) (l : List α) :
    match (m.trace s l).ending with
    | .next => (m.trace s l).consumed = l.length
    | .exit => 1 ≤ (m.trace s l).consumed ∧ (m.trace s l).consumed ≤ l.length
    | .error | .fault => (m.trace s l).consumed < l.length := by
  induction l generalizing s with
  | nil => rfl
  | cons x l ih =>
    rw [trace]
    rcases hc : (m.step s x 1).control with _ | _ | _ | _
    · have hrest := ih (m.step s x 1).state
      simp only [List.length_cons]
      rcases hl : (m.trace (m.step s x 1).state l).ending with _ | _ | _ | _ <;>
        simp only [hl] at hrest ⊢ <;> omega
    · simp
    · simp
    · simp

/-- However the input is cut, the state, the number of elements consumed and the ending are those
of the trace, and the reports are its reports, but for the last slice where the parser stops in
it. -/
theorem Lawful.feed_trace (lawful : m.Lawful) (bulk : m.Bulk) {ds : List (List α)}
    (nonempty : ∀ d ∈ ds, d ≠ []) :
    (m.feed s ds).state = (m.trace s ds.flatten).state ∧
      (m.feed s ds).consumed = (m.trace s ds.flatten).consumed ∧
      (m.feed s ds).ending = (m.trace s ds.flatten).ending ∧
      ∃ tail, Lost (m.trace s ds.flatten).ending tail ∧
        Same ((m.feed s ds).reports ++ tail) (m.trace s ds.flatten).reports := by
  induction ds generalizing s with
  | nil => exact ⟨rfl, rfl, rfl, [], Or.inl rfl, Same.refl []⟩
  | cons d ds ih =>
    obtain ⟨hstate, hconsumed, hending, tail, hlost, hsame⟩ :=
      lawful.execute_single (s := s) (nonempty d List.mem_cons_self)
    rw [← bulk.execute_eq] at hstate hconsumed hending hsame
    rw [List.flatten_cons, trace_append, feed]
    rcases hd : (m.trace s d).ending with _ | _ | _ | _
    · obtain ⟨hstate', hconsumed', hending', tail', hlost', hsame'⟩ :=
        ih (s := (m.trace s d).state) fun d' hd' => nonempty d' (List.mem_cons_of_mem _ hd')
      have htail : tail = [] := by
        rcases hlost with htail | ⟨hstopped, -⟩
        · exact htail
        · simp [hd] at hstopped
      subst htail
      rw [List.append_nil] at hsame
      simp only [hending, hd, hstate, hconsumed, hstate', hconsumed', hending', true_and]
      refine ⟨tail', hlost', ?_⟩
      rw [List.append_assoc]
      exact hsame.append hsame'
    · simp only [hending, hd]
      exact ⟨hstate, hconsumed, trivial, tail, hd ▸ hlost, hsame⟩
    · simp only [hending, hd]
      exact ⟨hstate, hconsumed, trivial, tail, hd ▸ hlost, hsame⟩
    · simp only [hending, hd]
      exact ⟨hstate, hconsumed, trivial, tail, hd ▸ hlost, hsame⟩

theorem Lawful.feed_cut (lawful : m.Lawful) (bulk : m.Bulk) {ds es : List (List α)}
    (flatten : ds.flatten = es.flatten) (nonempty : ∀ d ∈ ds, d ≠ [])
    (nonempty' : ∀ d ∈ es, d ≠ []) :
    (m.feed s ds).state = (m.feed s es).state ∧
      (m.feed s ds).consumed = (m.feed s es).consumed ∧
      (m.feed s ds).ending = (m.feed s es).ending ∧
      ∃ tail tail', Lost (m.feed s ds).ending tail ∧ Lost (m.feed s ds).ending tail' ∧
        join ((m.feed s ds).reports ++ tail) = join ((m.feed s es).reports ++ tail') := by
  obtain ⟨hstate, hconsumed, hending, tail, hlost, hsame⟩ :=
    lawful.feed_trace (s := s) bulk nonempty
  obtain ⟨hstate', hconsumed', hending', tail', hlost', hsame'⟩ :=
    lawful.feed_trace (s := s) bulk nonempty'
  rw [flatten] at hstate hconsumed hending hlost hsame
  refine ⟨hstate.trans hstate'.symm, hconsumed.trans hconsumed'.symm, hending.trans hending'.symm,
    tail, tail', ?_, ?_, (hsame.trans hsame'.symm).join_eq⟩
  · rwa [hending]
  · rwa [hending]

end Machine

end Run

end Hwnet.Slices
