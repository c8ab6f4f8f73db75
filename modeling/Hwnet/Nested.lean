import Mathlib.Data.List.Basic

set_option autoImplicit false

/-!
# Trees read off a stream

A format tells the item at the front of the input: a leaf, or a node and how many items it holds.
The reader keeps the nodes it is in on a stack and waits where an item is not complete. However the
input is cut, it reads the same trees, and it reads exactly the trees that the items spell.
-/
namespace Hwnet.Nested

universe u
variable {α β γ ε : Type u}

inductive Tree (β γ : Type u) where
  | leaf (value : β)
  | node (tag : γ) (children : List (Tree β γ))

/-- The item at the front of the input. A node holds one item besides `more`. -/
inductive Item (α β γ ε : Type u) where
  | wait
  | fail (error : ε)
  | leaf (value : β) (rest : List α)
  | node (tag : γ) (more : ℕ) (rest : List α)

def Item.put (rest : List α) : Item α β γ ε → Item α β γ ε
  | .wait => .wait
  | .fail e => .fail e
  | .leaf v _ => .leaf v rest
  | .node g more _ => .node g more rest

/-- An item depends on the tags of the nodes around it, the innermost first, and on its own
elements. -/
structure Format (α β γ ε : Type u) where
  item : List γ → List α → Item α β γ ε
  spelled : ∀ gs l, item gs l ≠ .wait →
    ∃ w rest, w ≠ [] ∧ l = w ++ rest ∧ ∀ behind, item gs (w ++ behind) = (item gs l).put behind

/-- A node that is being read: what it holds so far, the last one first, and how many are to come
after the next one. -/
structure Frame (β γ : Type u) where
  tag : γ
  more : ℕ
  done : List (Tree β γ)

def tags (fs : List (Frame β γ)) : List γ := fs.map Frame.tag

/-- A tree is complete; so are the nodes it is the last one of, perhaps up to the root. -/
def fill : List (Frame β γ) → Tree β γ → List (Frame β γ) × Option (Tree β γ)
  | [], t => ([], some t)
  | ⟨g, 0, done⟩ :: fs, t => fill fs (.node g (t :: done).reverse)
  | ⟨g, more + 1, done⟩ :: fs, t => (⟨g, more, t :: done⟩ :: fs, none)

theorem fill_length {fs fs' : List (Frame β γ)} {t : Tree β γ} {out : Option (Tree β γ)}
    (h : fill fs t = (fs', out)) : fs'.length ≤ fs.length := by
  induction fs generalizing t with
  | nil =>
    cases h
    exact Nat.le_refl _
  | cons f fs ih =>
    obtain ⟨g, more, done⟩ := f
    cases more with
    | zero => exact Nat.le_succ_of_le (ih h)
    | succ more =>
      cases h
      exact Nat.le_refl _

theorem fill_tags {fs fs' : List (Frame β γ)} {t : Tree β γ} {out : Option (Tree β γ)}
    (h : fill fs t = (fs', out)) : tags fs' <:+ tags fs := by
  induction fs generalizing t with
  | nil =>
    cases h
    exact List.suffix_refl _
  | cons f fs ih =>
    obtain ⟨g, more, done⟩ := f
    cases more with
    | zero => exact (ih h).trans (List.suffix_cons g (tags fs))
    | succ more =>
      cases h
      exact List.suffix_refl _

inductive Read (α β γ ε : Type u) where
  | wait (frames : List (Frame β γ)) (rest : List α)
  | fail (error : ε)
  | tree (tree : Tree β γ) (rest : List α)

inductive Stop (α β γ ε : Type u) where
  | wait (frames : List (Frame β γ)) (rest : List α)
  | fail (error : ε)

namespace Format

variable (F : Format α β γ ε)

theorem fail_append {gs : List γ} {l : List α} {e : ε} (behind : List α)
    (h : F.item gs l = .fail e) : F.item gs (l ++ behind) = .fail e := by
  obtain ⟨w, rest, -, hl, hw⟩ := F.spelled gs l (by simp [h])
  rw [h] at hw
  rw [hl, List.append_assoc]
  exact hw (rest ++ behind)

theorem leaf_spelled {gs : List γ} {l rest : List α} {v : β} (h : F.item gs l = .leaf v rest) :
    ∃ w, w ≠ [] ∧ l = w ++ rest ∧ ∀ behind, F.item gs (w ++ behind) = .leaf v behind := by
  obtain ⟨w, rest', hne, hl, hw⟩ := F.spelled gs l (by simp [h])
  rw [h] at hw
  have hrest := hw rest'
  rw [← hl, h] at hrest
  cases hrest
  exact ⟨w, hne, hl, hw⟩

theorem node_spelled {gs : List γ} {l rest : List α} {g : γ} {more : ℕ}
    (h : F.item gs l = .node g more rest) :
    ∃ w, w ≠ [] ∧ l = w ++ rest ∧ ∀ behind, F.item gs (w ++ behind) = .node g more behind := by
  obtain ⟨w, rest', hne, hl, hw⟩ := F.spelled gs l (by simp [h])
  rw [h] at hw
  have hrest := hw rest'
  rw [← hl, h] at hrest
  cases hrest
  exact ⟨w, hne, hl, hw⟩

theorem leaf_shorter {gs : List γ} {l rest : List α} {v : β} (h : F.item gs l = .leaf v rest) :
    rest.length < l.length := by
  obtain ⟨w, hw, rfl, -⟩ := F.leaf_spelled h
  have hpos := List.length_pos_iff.mpr hw
  rw [List.length_append]
  omega

theorem node_shorter {gs : List γ} {l rest : List α} {g : γ} {more : ℕ}
    (h : F.item gs l = .node g more rest) : rest.length < l.length := by
  obtain ⟨w, hw, rfl, -⟩ := F.node_spelled h
  have hpos := List.length_pos_iff.mpr hw
  rw [List.length_append]
  omega

def read (fs : List (Frame β γ)) (l : List α) : Read α β γ ε :=
  match _h : F.item (tags fs) l with
  | .wait => .wait fs l
  | .fail e => .fail e
  | .leaf v rest =>
    match fill fs (.leaf v) with
    | (_, some t) => .tree t rest
    | (fs', none) => read fs' rest
  | .node g more rest => read (⟨g, more, []⟩ :: fs) rest
termination_by l.length
decreasing_by
  · exact F.leaf_shorter _h
  · exact F.node_shorter _h

def after (filled : List (Frame β γ) × Option (Tree β γ)) (rest : List α) : Read α β γ ε :=
  match filled with
  | (_, some t) => .tree t rest
  | (fs, none) => F.read fs rest

section Equations
variable {F} {fs : List (Frame β γ)} {l rest : List α} {v : β} {g : γ} {more : ℕ} {e : ε}

theorem read_wait (h : F.item (tags fs) l = .wait) : F.read fs l = .wait fs l := by
  rw [read]
  split <;> simp_all

theorem read_fail (h : F.item (tags fs) l = .fail e) : F.read fs l = .fail e := by
  rw [read]
  split <;> simp_all

theorem read_leaf (h : F.item (tags fs) l = .leaf v rest) :
    F.read fs l = F.after (fill fs (.leaf v)) rest := by
  rw [read]
  split <;> simp_all [after]

theorem read_node (h : F.item (tags fs) l = .node g more rest) :
    F.read fs l = F.read (⟨g, more, []⟩ :: fs) rest := by
  rw [read]
  split <;> simp_all

end Equations

/-- An induction over the items that are read. -/
theorem read_induction {P : List (Frame β γ) → List α → Prop}
    (wait : ∀ fs l, F.item (tags fs) l = .wait → P fs l)
    (fail : ∀ fs l e, F.item (tags fs) l = .fail e → P fs l)
    (leaf : ∀ fs l v rest, F.item (tags fs) l = .leaf v rest →
      (∀ fs', fill fs (.leaf v) = (fs', none) → P fs' rest) → P fs l)
    (node : ∀ fs l g more rest, F.item (tags fs) l = .node g more rest →
      P (⟨g, more, []⟩ :: fs) rest → P fs l)
    (fs : List (Frame β γ)) (l : List α) : P fs l := by
  induction hn : l.length using Nat.strongRecOn generalizing fs l with
  | ind n ih =>
    subst hn
    cases h : F.item (tags fs) l with
    | wait => exact wait fs l h
    | fail e => exact fail fs l e h
    | leaf v rest =>
      exact leaf fs l v rest h fun fs' _ => ih _ (F.leaf_shorter h) fs' rest rfl
    | node g more rest => exact node fs l g more rest h (ih _ (F.node_shorter h) _ rest rfl)

/-! ## Input that comes later -/

section Append
variable {F} {fs fs' : List (Frame β γ)} {l rest : List α}

theorem leaf_append {gs : List γ} {v : β} (behind : List α) (h : F.item gs l = .leaf v rest) :
    F.item gs (l ++ behind) = .leaf v (rest ++ behind) := by
  obtain ⟨w, -, rfl, hw⟩ := F.leaf_spelled h
  rw [List.append_assoc, hw]

theorem node_append {gs : List γ} {g : γ} {more : ℕ} (behind : List α)
    (h : F.item gs l = .node g more rest) :
    F.item gs (l ++ behind) = .node g more (rest ++ behind) := by
  obtain ⟨w, -, rfl, hw⟩ := F.node_spelled h
  rw [List.append_assoc, hw]

def feed (behind : List α) : Read α β γ ε → Read α β γ ε
  | .wait fs rest => F.read fs (rest ++ behind)
  | .fail e => .fail e
  | .tree t rest => .tree t (rest ++ behind)

theorem read_append (fs : List (Frame β γ)) (l behind : List α) :
    F.read fs (l ++ behind) = F.feed behind (F.read fs l) := by
  refine F.read_induction (P := fun fs l => F.read fs (l ++ behind) = F.feed behind (F.read fs l))
    ?_ ?_ ?_ ?_ fs l
  · intro fs l h
    rw [read_wait h]
    rfl
  · intro fs l e h
    rw [read_fail h, read_fail (F.fail_append behind h)]
    rfl
  · intro fs l v rest h ih
    rw [read_leaf h, read_leaf (leaf_append behind h)]
    cases hfill : fill fs (.leaf v) with
    | mk fs' out =>
      cases out with
      | some t => rfl
      | none => exact ih fs' hfill
  · intro fs l g more rest h ih
    rw [read_node h, read_node (node_append behind h)]
    exact ih

theorem read_shorter {t : Tree β γ} (h : F.read fs l = .tree t rest) :
    rest.length < l.length := by
  revert h
  refine F.read_induction (P := fun fs l => F.read fs l = .tree t rest → rest.length < l.length)
    ?_ ?_ ?_ ?_ fs l
  · intro fs l hitem h
    rw [read_wait hitem] at h
    cases h
  · intro fs l e hitem h
    rw [read_fail hitem] at h
    cases h
  · intro fs l v m hitem ih h
    rw [read_leaf hitem] at h
    cases hfill : fill fs (.leaf v) with
    | mk fs' out =>
      rw [hfill] at h
      cases out with
      | some u =>
        cases h
        exact F.leaf_shorter hitem
      | none => exact Nat.lt_trans (ih fs' hfill h) (F.leaf_shorter hitem)
  · intro fs l g more m hitem ih h
    rw [read_node hitem] at h
    exact Nat.lt_trans (ih h) (F.node_shorter hitem)

/-- Where the reader waits, the item in front is not complete. -/
theorem read_waits (h : F.read fs l = .wait fs' rest) : F.item (tags fs') rest = .wait := by
  revert h
  refine F.read_induction
    (P := fun fs l => F.read fs l = .wait fs' rest → F.item (tags fs') rest = .wait)
    ?_ ?_ ?_ ?_ fs l
  · intro fs l hitem h
    rw [read_wait hitem] at h
    cases h
    exact hitem
  · intro fs l e hitem h
    rw [read_fail hitem] at h
    cases h
  · intro fs l v m hitem ih h
    rw [read_leaf hitem] at h
    cases hfill : fill fs (.leaf v) with
    | mk fs' out =>
      rw [hfill] at h
      cases out with
      | some u => cases h
      | none => exact ih fs' hfill h
  · intro fs l g more m hitem ih h
    rw [read_node hitem] at h
    exact ih h

end Append

/-! ## One tree after another -/

def drain (fs : List (Frame β γ)) (l : List α) : List (Tree β γ) × Stop α β γ ε :=
  match _h : F.read fs l with
  | .wait fs' rest => ([], .wait fs' rest)
  | .fail e => ([], .fail e)
  | .tree t rest => (t :: (drain [] rest).1, (drain [] rest).2)
termination_by l.length
decreasing_by all_goals exact read_shorter _h

section Drain
variable {F} {fs fs' : List (Frame β γ)} {l rest : List α} {e : ε} {t : Tree β γ}

theorem drain_wait (h : F.read fs l = .wait fs' rest) : F.drain fs l = ([], .wait fs' rest) := by
  rw [drain]
  split <;> simp_all

theorem drain_fail (h : F.read fs l = .fail e) : F.drain fs l = ([], .fail e) := by
  rw [drain]
  split <;> simp_all

theorem drain_tree (h : F.read fs l = .tree t rest) :
    F.drain fs l = (t :: (F.drain [] rest).1, (F.drain [] rest).2) := by
  rw [drain]
  split <;> simp_all

theorem drain_congr {m : List α} (h : F.read fs l = F.read fs' m) :
    F.drain fs l = F.drain fs' m := by
  cases hm : F.read fs' m with
  | wait fs'' rest => rw [drain_wait hm, drain_wait (h.trans hm)]
  | fail e => rw [drain_fail hm, drain_fail (h.trans hm)]
  | tree t rest => rw [drain_tree hm, drain_tree (h.trans hm)]

end Drain

def resume (behind : List α) : Stop α β γ ε → List (Tree β γ) × Stop α β γ ε
  | .wait fs rest => F.drain fs (rest ++ behind)
  | .fail e => ([], .fail e)

def resumeAll : Stop α β γ ε → List (List α) → List (Tree β γ) × Stop α β γ ε
  | s, [] => ([], s)
  | s, chunk :: chunks =>
    ((F.resume chunk s).1 ++ (resumeAll (F.resume chunk s).2 chunks).1,
      (resumeAll (F.resume chunk s).2 chunks).2)

theorem drain_append (fs : List (Frame β γ)) (l behind : List α) :
    F.drain fs (l ++ behind) = ((F.drain fs l).1 ++ (F.resume behind (F.drain fs l).2).1,
      (F.resume behind (F.drain fs l).2).2) := by
  induction hn : l.length using Nat.strongRecOn generalizing fs l with
  | ind n ih =>
    subst hn
    have hread := F.read_append fs l behind
    cases h : F.read fs l with
    | wait fs' rest =>
      rw [h] at hread
      rw [drain_wait h, List.nil_append]
      exact drain_congr hread
    | fail e =>
      rw [h] at hread
      rw [drain_fail h, drain_fail hread]
      rfl
    | tree t rest =>
      rw [h] at hread
      rw [drain_tree h, drain_tree hread, ih rest.length (read_shorter h) [] rest rfl]
      rfl

/-- However the input is cut, the reader reads the same trees and stops in the same way. -/
theorem drain_flatten (fs : List (Frame β γ)) (l : List α) (chunks : List (List α)) :
    F.drain fs (l ++ chunks.flatten) =
      ((F.drain fs l).1 ++ (F.resumeAll (F.drain fs l).2 chunks).1,
        (F.resumeAll (F.drain fs l).2 chunks).2) := by
  induction chunks generalizing l with
  | nil => simp [resumeAll]
  | cons chunk chunks ih =>
    rw [List.flatten_cons, ← List.append_assoc, ih, drain_append]
    simp only [resumeAll, List.append_assoc]

/-! ## The trees that the items spell -/

/-- The input spells trees inside the nodes of the tags. -/
inductive Spells : List γ → List α → List (Tree β γ) → Prop where
  | nil (gs : List γ) : Spells gs [] []
  | leaf {gs : List γ} {w u : List α} {v : β} {us : List (Tree β γ)}
      (item : F.item gs w = .leaf v []) (behind : Spells gs u us) :
      Spells gs (w ++ u) (.leaf v :: us)
  | node {gs : List γ} {w x u : List α} {g : γ} {more : ℕ} {xs us : List (Tree β γ)}
      (item : F.item gs w = .node g more []) (children : Spells (g :: gs) x xs)
      (count : xs.length = more + 1) (behind : Spells gs u us) :
      Spells gs (w ++ (x ++ u)) (.node g xs :: us)

namespace Spells
variable {F} {gs : List γ} {w u : List α} {ts us : List (Tree β γ)}

theorem append (h : F.Spells gs w ts) (h' : F.Spells gs u us) :
    F.Spells gs (w ++ u) (ts ++ us) := by
  induction h with
  | nil => exact h'
  | leaf item _ ih =>
    rw [List.append_assoc]
    exact .leaf item (ih h')
  | node item children count _ _ ih =>
    rw [List.append_assoc, List.append_assoc]
    exact .node item children count (ih h')

theorem empty (h : F.Spells gs w []) : w = [] := by
  cases h
  rfl

theorem split {t : Tree β γ} (h : F.Spells gs w (t :: ts)) :
    ∃ w₁ w₂, w = w₁ ++ w₂ ∧ F.Spells gs w₁ [t] ∧ F.Spells gs w₂ ts := by
  cases h with
  | @leaf _ w u v _ item behind =>
    exact ⟨w, u, rfl, by simpa only [List.append_nil] using Spells.leaf item (.nil gs), behind⟩
  | @node _ w x u g more xs _ item children count behind =>
    exact ⟨w ++ x, u, (List.append_assoc ..).symm,
      by simpa only [List.append_nil] using Spells.node item children count (.nil gs), behind⟩

theorem after_child {fs : List (Frame β γ)} {g : γ} (t : Tree β γ) (done : List (Tree β γ))
    (h : F.Spells gs u us) (later : ∀ (more : ℕ) (done : List (Tree β γ)) (rest : List α),
      us.length = more + 1 → F.read (⟨g, more, done⟩ :: fs) (u ++ rest) =
        F.after (fill fs (.node g (done.reverse ++ us))) rest) (rest : List α) :
    F.after (fill (⟨g, us.length, done⟩ :: fs) t) (u ++ rest) =
      F.after (fill fs (.node g (done.reverse ++ t :: us))) rest := by
  cases us with
  | nil =>
    obtain rfl := h.empty
    simp [fill]
  | cons t' us =>
    have hlater := later us.length (t :: done) rest rfl
    simpa [fill, after] using hlater

/-- The trees that fill a node up are read as its children. -/
theorem read_children {fs : List (Frame β γ)} {g : γ} {more : ℕ} {done : List (Tree β γ)}
    (h : F.Spells gs w ts) (hgs : gs = g :: tags fs) (count : ts.length = more + 1)
    (rest : List α) : F.read (⟨g, more, done⟩ :: fs) (w ++ rest) =
      F.after (fill fs (.node g (done.reverse ++ ts))) rest := by
  induction h generalizing fs g more done rest with
  | nil => cases count
  | @leaf gs w u v us item behind ih =>
    subst hgs
    obtain rfl : us.length = more := Nat.succ.inj count
    have hitem : F.item (tags (⟨g, us.length, done⟩ :: fs)) (w ++ (u ++ rest)) =
        .leaf v (u ++ rest) := leaf_append (u ++ rest) item
    rw [List.append_assoc, read_leaf hitem]
    exact after_child (.leaf v) done behind (fun more done rest count => ih rfl count rest) rest
  | @node gs w x u g' more' xs us item children count' behind ihx ih =>
    subst hgs
    obtain rfl : us.length = more := Nat.succ.inj count
    have hitem : F.item (tags (⟨g, us.length, done⟩ :: fs)) (w ++ (x ++ (u ++ rest))) =
        .node g' more' (x ++ (u ++ rest)) := node_append (x ++ (u ++ rest)) item
    rw [List.append_assoc, List.append_assoc, read_node hitem, ihx rfl count']
    exact after_child (.node g' xs) done behind (fun more done rest count => ih rfl count rest) rest

/-- A tree is read where its text stands. -/
theorem read_tree {fs : List (Frame β γ)} {t : Tree β γ} (h : F.Spells (tags fs) w [t])
    (rest : List α) : F.read fs (w ++ rest) = F.after (fill fs t) rest := by
  cases h with
  | leaf item behind =>
    obtain rfl := behind.empty
    rw [List.append_nil, read_leaf (F.leaf_append rest item)]
    rfl
  | @node _ w x u g more xs _ item children count behind =>
    obtain rfl := behind.empty
    rw [List.append_nil, List.append_assoc, read_node (F.node_append (x ++ rest) item),
      List.nil_append, children.read_children rfl count]
    rfl

end Spells

theorem leaf_text {gs : List γ} {l rest : List α} {v : β} (h : F.item gs l = .leaf v rest) :
    ∃ w, l = w ++ rest ∧ F.Spells gs w [.leaf v] := by
  obtain ⟨w, -, rfl, hw⟩ := F.leaf_spelled h
  have item := hw []
  rw [List.append_nil] at item
  exact ⟨w, rfl, by simpa only [List.append_nil] using Spells.leaf item (.nil gs)⟩

theorem node_text {gs : List γ} {l rest : List α} {g : γ} {more : ℕ}
    (h : F.item gs l = .node g more rest) :
    ∃ w, l = w ++ rest ∧ ∀ x xs, F.Spells (g :: gs) x xs → xs.length = more + 1 →
      F.Spells gs (w ++ x) [.node g xs] := by
  obtain ⟨w, -, rfl, hw⟩ := F.node_spelled h
  have item := hw []
  rw [List.append_nil] at item
  refine ⟨w, rfl, fun x xs children count => ?_⟩
  simpa only [List.append_nil] using Spells.node item children count (.nil gs)

/-- The text that completes the nodes of the stack once `t` is complete, up to the root `r`. -/
def Fills : List (Frame β γ) → Tree β γ → List α → Tree β γ → Prop
  | [], t, w, r => w = [] ∧ t = r
  | ⟨g, more, done⟩ :: fs, t, w, r => ∃ u us w', w = u ++ w' ∧ us.length = more ∧
      F.Spells (g :: tags fs) u us ∧ Fills fs (.node g (done.reverse ++ t :: us)) w' r

def Closes (fs : List (Frame β γ)) (w : List α) (r : Tree β γ) : Prop :=
  ∃ w₁ t w₂, w = w₁ ++ w₂ ∧ F.Spells (tags fs) w₁ [t] ∧ F.Fills fs t w₂ r

section Closing
variable {F} {fs fs' : List (Frame β γ)} {w l rest : List α} {t r : Tree β γ}

theorem fill_some (h : fill fs t = (fs', some r)) : F.Fills fs t [] r := by
  induction fs generalizing t with
  | nil =>
    cases h
    exact ⟨rfl, rfl⟩
  | cons f fs ih =>
    obtain ⟨g, more, done⟩ := f
    cases more with
    | zero => exact ⟨[], [], [], rfl, rfl, .nil _, by simpa using ih h⟩
    | succ more => cases h

theorem fill_none (h : fill fs t = (fs', none)) (closes : F.Closes fs' w r) :
    F.Fills fs t w r := by
  induction fs generalizing t with
  | nil => cases h
  | cons f fs ih =>
    obtain ⟨g, more, done⟩ := f
    cases more with
    | zero => exact ⟨[], [], w, rfl, rfl, .nil _, by simpa using ih h⟩
    | succ more =>
      cases h
      obtain ⟨w₁, t', w₂, rfl, hw, u, us, w', rfl, rfl, hu, hfills⟩ := closes
      refine ⟨w₁ ++ u, t' :: us, w', (List.append_assoc ..).symm, rfl, hw.append hu, ?_⟩
      simpa using hfills

theorem closes_of_read (h : F.read fs l = .tree r rest) :
    ∃ w, l = w ++ rest ∧ F.Closes fs w r := by
  revert h
  refine F.read_induction
    (P := fun fs l => F.read fs l = .tree r rest → ∃ w, l = w ++ rest ∧ F.Closes fs w r)
    ?_ ?_ ?_ ?_ fs l
  · intro fs l hitem h
    rw [read_wait hitem] at h
    cases h
  · intro fs l e hitem h
    rw [read_fail hitem] at h
    cases h
  · intro fs l v m hitem ih h
    rw [read_leaf hitem] at h
    obtain ⟨w₁, rfl, hleaf⟩ := F.leaf_text hitem
    cases hfill : fill fs (.leaf v) with
    | mk fs' out =>
      rw [hfill] at h
      cases out with
      | some t =>
        cases h
        exact ⟨w₁, rfl, w₁, .leaf v, [], (List.append_nil w₁).symm, hleaf, fill_some hfill⟩
      | none =>
        obtain ⟨w₂, rfl, hcloses⟩ := ih fs' hfill h
        exact ⟨w₁ ++ w₂, (List.append_assoc ..).symm, w₁, .leaf v, w₂, rfl, hleaf,
          fill_none hfill hcloses⟩
  · intro fs l g more m hitem ih h
    rw [read_node hitem] at h
    obtain ⟨w₀, rfl, hnode⟩ := F.node_text hitem
    obtain ⟨w₂, rfl, w₁, t, w₃, rfl, ht, u, us, w', rfl, rfl, hus, hfills⟩ := ih h
    exact ⟨w₀ ++ (w₁ ++ (u ++ w')), by simp, w₀ ++ (w₁ ++ u), .node g (t :: us), w', by simp,
      hnode (w₁ ++ u) (t :: us) (ht.append hus) rfl, hfills⟩

/-- The reader reads a tree where one is spelled and nowhere else. -/
theorem read_iff : F.read [] l = .tree r rest ↔ ∃ w, l = w ++ rest ∧ F.Spells [] w [r] := by
  constructor
  · intro h
    obtain ⟨w, rfl, w₁, t, w₂, rfl, hw, rfl, rfl⟩ := closes_of_read h
    exact ⟨w₁ ++ [], rfl, by rw [List.append_nil]; exact hw⟩
  · rintro ⟨w, rfl, hw⟩
    have root : F.Spells (tags ([] : List (Frame β γ))) w [r] := hw
    exact root.read_tree rest

end Closing

theorem Spells.drain {F : Format α β γ ε} {w : List α} {ts : List (Tree β γ)}
    (h : F.Spells [] w ts) (rest : List α) :
    F.drain [] (w ++ rest) = (ts ++ (F.drain [] rest).1, (F.drain [] rest).2) := by
  induction ts generalizing w with
  | nil =>
    obtain rfl := h.empty
    rfl
  | cons t ts ih =>
    obtain ⟨w₁, w₂, rfl, ht, hts⟩ := h.split
    have hread : F.read [] (w₁ ++ (w₂ ++ rest)) = .tree t (w₂ ++ rest) :=
      read_iff.mpr ⟨w₁, rfl, ht⟩
    rw [List.append_assoc, drain_tree hread, ih hts]
    rfl

/-! ## Where reading fails -/

/-- What holds of the tags and the input and is kept within them and by the items of nodes. -/
structure Kept (P : List γ → List α → Prop) : Prop where
  within : ∀ {gs gs' : List γ} {l l' : List α}, P gs l → gs' <:+ gs → l' <:+ l → P gs' l'
  node : ∀ {gs : List γ} {l rest : List α} {g : γ} {more : ℕ}, P gs l →
    F.item gs l = .node g more rest → P (g :: gs) rest

section Failing
variable {F} {P : List γ → List α → Prop} {fs : List (Frame β γ)} {l rest : List α} {e : ε}
  {t : Tree β γ}

theorem leaf_suffix {gs : List γ} {v : β} (h : F.item gs l = .leaf v rest) : rest <:+ l := by
  obtain ⟨w, -, rfl, -⟩ := F.leaf_spelled h
  exact List.suffix_append w rest

theorem node_suffix {gs : List γ} {g : γ} {more : ℕ} (h : F.item gs l = .node g more rest) :
    rest <:+ l := by
  obtain ⟨w, -, rfl, -⟩ := F.node_spelled h
  exact List.suffix_append w rest

theorem tree_suffix (h : F.read fs l = .tree t rest) : rest <:+ l := by
  obtain ⟨w, rfl, -⟩ := closes_of_read h
  exact List.suffix_append w rest

theorem read_fails (kept : F.Kept P) (holds : P (tags fs) l) (h : F.read fs l = .fail e) :
    ∃ gs m, P gs m ∧ F.item gs m = .fail e := by
  revert h holds
  refine F.read_induction (P := fun fs l => P (tags fs) l → F.read fs l = .fail e →
    ∃ gs m, P gs m ∧ F.item gs m = .fail e) ?_ ?_ ?_ ?_ fs l
  · intro fs l hitem _ h
    rw [read_wait hitem] at h
    cases h
  · intro fs l e' hitem holds h
    rw [read_fail hitem] at h
    cases h
    exact ⟨tags fs, l, holds, hitem⟩
  · intro fs l v m hitem ih holds h
    rw [read_leaf hitem] at h
    cases hfill : fill fs (.leaf v) with
    | mk fs' out =>
      rw [hfill] at h
      cases out with
      | some u => cases h
      | none => exact ih fs' hfill (kept.within holds (fill_tags hfill) (leaf_suffix hitem)) h
  · intro fs l g more m hitem ih holds h
    rw [read_node hitem] at h
    exact ih (kept.node holds hitem) h

theorem drain_fails (kept : F.Kept P) (holds : P (tags fs) l)
    (h : (F.drain fs l).2 = .fail e) : ∃ gs m, P gs m ∧ F.item gs m = .fail e := by
  induction hn : l.length using Nat.strongRecOn generalizing fs l with
  | ind n ih =>
    subst hn
    cases hread : F.read fs l with
    | wait fs' rest =>
      rw [drain_wait hread] at h
      cases h
    | fail e' =>
      rw [drain_fail hread] at h
      cases h
      exact read_fails kept holds hread
    | tree t rest =>
      rw [drain_tree hread] at h
      have outside : tags ([] : List (Frame β γ)) <:+ tags fs := List.nil_suffix
      exact ih rest.length (read_shorter hread)
        (kept.within holds outside (tree_suffix hread)) h rfl

end Failing

end Format
end Hwnet.Nested
