import Hwnet.RedisReaderItems

set_option autoImplicit false

/-!
# The reader on a stream of bytes

The tasks of the reader are the nodes that are open, and `reply` is the tree that they belong to.
However the stream is cut, the reader gives the replies of the whole, as long as the length of the
buffer fits an `int`.
-/
namespace Hwnet.Hiredis

open Nested

abbrev RespTree := Tree Reply ℤ
abbrev RespFrame := Frame Reply ℤ

/-! ## Trees and objects -/

mutual

def replyOf : RespTree → Reply
  | .leaf value => value
  | .node elements children => .array (toSize elements) (elementsOf children)

def elementsOf : List RespTree → List (Option Reply)
  | [] => []
  | t :: ts => some (replyOf t) :: elementsOf ts

end

theorem elementsOf_eq (ts : List RespTree) : elementsOf ts = ts.map (some ∘ replyOf) := by
  induction ts with
  | nil => rfl
  | cons t ts ih => rw [elementsOf, ih]; rfl

/-- The elements of an array under construction, with what stands at the place of the next. -/
def elementOf (f : RespFrame) (hole : Option Reply) : List (Option Reply) :=
  (elementsOf f.done.reverse ++ hole :: List.replicate f.more none).take f.tag.toNat

def plug : List RespFrame → Option Reply → Option Reply
  | [], hole => hole
  | f :: fs, hole => plug fs (some (.array (toSize f.tag) (elementOf f hole)))

def idxOf : List RespFrame → ℤ
  | [] => -1
  | f :: _ => f.done.length

def parents : List RespFrame → List Task
  | [] => []
  | f :: fs => ⟨some .array, f.tag, idxOf fs⟩ :: parents fs

def tasks (fs : List RespFrame) (type : Option ReplyType) : List Task :=
  ⟨type, -1, idxOf fs⟩ :: parents fs

/-- The array was made for the elements that it has and those to come. -/
def Roomy (f : RespFrame) : Prop := f.tag = f.done.length + f.more + 1

/-- Only the innermost array may be one without room. -/
def Sound : List RespFrame → Prop
  | [] => True
  | f :: fs => (Roomy f ∨ f.tag ≤ 0 ∧ f.done = []) ∧ ∀ g ∈ fs, Roomy g

theorem tags_doomed {fs : List RespFrame} (sound : Sound fs) (free : doomed (tags fs) = false) :
    ∀ f ∈ fs, Roomy f := by
  cases fs with
  | nil => simp
  | cons f fs =>
    obtain ⟨hf, hfs⟩ := sound
    have positive : 0 < f.tag := by simpa [doomed, tags] using free
    intro g hg
    rcases List.mem_cons.mp hg with rfl | hg
    · exact hf.resolve_right fun h => absurd h.1 (by omega)
    · exact hfs g hg

theorem sound_roomy {fs : List RespFrame} (h : ∀ f ∈ fs, Roomy f) : Sound fs := by
  cases fs with
  | nil => trivial
  | cons f fs => exact ⟨.inl (h f (by simp)), fun g hg => h g (by simp [hg])⟩

section Place
variable {f : RespFrame} {fs : List RespFrame}

theorem elementOf_roomy (h : Roomy f) (hole : Option Reply) :
    elementOf f hole = elementsOf f.done.reverse ++ hole :: List.replicate f.more none := by
  unfold Roomy at h
  unfold elementOf
  rw [List.take_of_length_le]
  simp only [elementsOf_eq, List.length_append, List.length_map, List.length_reverse,
    List.length_cons, List.length_replicate]
  omega

theorem elementOf_get (h : Roomy f) (hole : Option Reply) :
    (elementOf f hole)[f.done.length]? = some hole := by
  rw [elementOf_roomy h, List.getElem?_append_right (by simp [elementsOf_eq])]
  simp [elementsOf_eq]

theorem elementOf_set (h : Roomy f) (hole hole' : Option Reply) :
    (elementOf f hole).set f.done.length hole' = elementOf f hole' := by
  rw [elementOf_roomy h, elementOf_roomy h, List.set_append_right _ _ (by simp [elementsOf_eq])]
  simp [elementsOf_eq]

def indices (fs : List RespFrame) : List ℕ := (fs.map fun f => f.done.length).reverse

theorem path_tasks (fs : List RespFrame) (type : Option ReplyType) (elements : ℤ) :
    path (⟨type, elements, idxOf fs⟩ :: parents fs) = indices fs := by
  induction fs generalizing type elements with
  | nil => rfl
  | cons f fs ih =>
    rw [parents, path, ih]
    simp [indices, idxOf]

theorem store_plug (h : ∀ f ∈ fs, Roomy f) (deeper : List ℕ) (obj : Reply) (hole : Option Reply) :
    store (indices fs ++ deeper) obj (plug fs hole) = (store deeper obj hole).map (plug fs) := by
  induction fs generalizing deeper hole with
  | nil =>
    change store deeper obj hole = (store deeper obj hole).map id
    cases store deeper obj hole <;> rfl
  | cons f fs ih =>
    have hf := h f (by simp)
    have hindices : indices (f :: fs) ++ deeper = indices fs ++ (f.done.length :: deeper) := by
      simp [indices]
    rw [hindices, plug, ih fun g hg => h g (by simp [hg])]
    simp only [store, elementOf_get hf]
    cases store deeper obj hole with
    | error fault => rfl
    | ok inner =>
      change Except.ok (plug fs (some (.array _ ((elementOf f hole).set f.done.length inner)))) = _
      rw [elementOf_set hf]
      rfl

theorem store_roomy (h : ∀ f ∈ fs, Roomy f) (obj : Reply) :
    store (indices fs) obj (plug fs none) = .ok (plug fs (some obj)) := by
  have hstore := store_plug h [] obj none
  rwa [List.append_nil] at hstore

/-- There is no place for an object in an array without room. -/
theorem store_doomed (sound : Sound fs) (hdoomed : doomed (tags fs) = true) (obj : Reply) :
    store (indices fs) obj (plug fs none) = .error .element := by
  cases fs with
  | nil => cases hdoomed
  | cons f fs =>
    obtain ⟨hf, hfs⟩ := sound
    have htag : f.tag ≤ 0 := by simpa [doomed, tags] using hdoomed
    have hdone : f.done = [] := hf.elim (fun h => by unfold Roomy at h; omega) (·.2)
    have hindices : indices (f :: fs) = indices fs ++ [0] := by simp [indices, hdone]
    have helement : elementOf f none = [] := by
      unfold elementOf
      rw [Int.toNat_of_nonpos htag, List.take_zero]
    rw [hindices, plug, helement, store_plug hfs]
    rfl

/-- The tasks are left whose arrays are full. -/
theorem move_fill (h : ∀ f ∈ fs, Roomy f) (t : RespTree) (type : Option ReplyType)
    (elements : ℤ) :
    (∀ fs', fill fs t = (fs', none) →
      moveToNextTask (⟨type, elements, idxOf fs⟩ :: parents fs) = .ok (tasks fs' none) ∧
        plug fs (some (replyOf t)) = plug fs' none ∧ ∀ f ∈ fs', Roomy f) ∧
    ∀ fs' r, fill fs t = (fs', some r) →
      moveToNextTask (⟨type, elements, idxOf fs⟩ :: parents fs) = .ok [] ∧
        plug fs (some (replyOf t)) = some (replyOf r) := by
  induction fs generalizing t type elements with
  | nil =>
    refine ⟨fun fs' hfill => (by cases hfill), fun fs' r hfill => ?_⟩
    cases hfill
    exact ⟨rfl, rfl⟩
  | cons f fs ih =>
    obtain ⟨g, more, done⟩ := f
    have hf : g = done.length + more + 1 := h ⟨g, more, done⟩ (by simp)
    have hroom : Roomy ⟨g, more, done⟩ := hf
    have hfs : ∀ f ∈ fs, Roomy f := fun f hmem => h f (by simp [hmem])
    cases more with
    | zero =>
      have hmove : moveToNextTask (⟨type, elements, idxOf (⟨g, 0, done⟩ :: fs)⟩ ::
          parents (⟨g, 0, done⟩ :: fs)) =
          moveToNextTask (⟨some .array, g, idxOf fs⟩ :: parents fs) := by
        simp [moveToNextTask, parents, idxOf, hf]
      have hplug : plug (⟨g, 0, done⟩ :: fs) (some (replyOf t)) =
          plug fs (some (replyOf (.node g (t :: done).reverse))) := by
        rw [plug, elementOf_roomy hroom, replyOf]
        simp [elementsOf_eq]
      rw [hmove, hplug]
      exact ih hfs (.node g (t :: done).reverse) (some .array) g
    | succ more =>
      refine ⟨fun fs' hfill => ?_, fun fs' r hfill => by cases hfill⟩
      cases hfill
      have hroom' : Roomy ⟨g, more, t :: done⟩ := by
        change g = ((t :: done).length : ℤ) + more + 1
        rw [List.length_cons]
        omega
      refine ⟨?_, ?_, ?_⟩
      · simp only [moveToNextTask, parents, idxOf, tasks]
        rw [if_pos trivial, if_neg (by omega), if_pos (by omega)]
        simp
      · rw [plug, plug, elementOf_roomy hroom, elementOf_roomy hroom']
        simp [elementsOf_eq, List.replicate_succ]
      · intro f hmem
        rcases List.mem_cons.mp hmem with rfl | hmem
        · exact hroom'
        · exact hfs f hmem

end Place

/-! ## The reader and the frames -/

structure Stands (r : Reader) (fs : List RespFrame) (type : Option ReplyType) : Prop where
  err : r.err = 0 ∧ r.errstr = ""
  pos : r.pos ≤ r.buf.length
  rstack : r.rstack = tasks fs type
  reply : r.reply = plug fs none
  sound : Sound fs
  depth : fs.length ≤ 8

structure Done (r : Reader) (t : RespTree) : Prop where
  err : r.err = 0 ∧ r.errstr = ""
  pos : r.pos ≤ r.buf.length
  rstack : r.rstack = []
  reply : r.reply = some (replyOf t)

def Follows (r : Reader) : List RespFrame × Option RespTree → Prop
  | (fs, none) => Stands r fs none
  | (_, some t) => Done r t

def failed (text : String) : Reader := redisReaderCreate.setError errProtocol text

def Agrees (r : Reader) (fs : List RespFrame) (result : Except Fault (Reader × Bool)) :
    RespItem → Prop
  | .wait => result = .ok (r, false)
  | .fail (.fault fault) => result = .error fault
  | .fail (.protocol text) => result = .ok (failed text, false)
  | .leaf v rest => ∃ r', result = .ok (r', true) ∧ Follows r' (fill fs (.leaf v)) ∧
      r'.unread = rest
  | .node g more rest => ∃ r', result = .ok (r', true) ∧ Stands r' (⟨g, more, []⟩ :: fs) none ∧
      r'.unread = rest

section Items
variable {r : Reader} {fs : List RespFrame} {type : Option ReplyType}

theorem unread_length (r : Reader) : r.unread.length = r.buf.length - r.pos := List.length_drop

theorem Stands.skip (h : Stands r fs type) {n : ℕ} (enough : n ≤ r.unread.length) :
    Stands { r with pos := r.pos + n } fs type := by
  have hpos := h.pos
  rw [unread_length] at enough
  exact ⟨h.err, by change r.pos + n ≤ r.buf.length; omega, h.rstack, h.reply, h.sound, h.depth⟩

theorem unread_skip (r : Reader) (n : ℕ) :
    Reader.unread { r with pos := r.pos + n } = r.unread.drop n := by
  simp [Reader.unread, List.drop_drop]

theorem Stands.path (h : Stands r fs type) : path r.rstack = indices fs := by
  rw [h.rstack]
  exact path_tasks fs type (-1)

theorem attach_doomed (h : Stands r fs type) (hdoomed : doomed (tags fs) = true) (obj : Reply) :
    r.attach obj = .error .element := by
  unfold Reader.attach
  rw [h.path, h.reply, store_doomed h.sound hdoomed]
  rfl

theorem attach_roomy (h : Stands r fs type) (free : doomed (tags fs) = false) (obj : Reply) :
    r.attach obj = .ok { r with reply := plug fs (some obj) } := by
  unfold Reader.attach
  rw [h.path, h.reply, store_roomy (tags_doomed h.sound free)]
  rfl

theorem complete_agrees (h : Stands r fs type) (s : Reader) (obj : Reply) :
    Agrees s fs (r.complete obj) (made (tags fs) (.leaf obj r.unread)) := by
  unfold Reader.complete made
  cases free : doomed (tags fs) with
  | true =>
    rw [attach_doomed h free]
    rfl
  | false =>
    have roomy := tags_doomed h.sound free
    obtain ⟨hnone, hsome⟩ := move_fill roomy (.leaf obj) type (-1)
    rw [attach_roomy h free]
    change ∃ r', (moveToNextTask r.rstack >>= fun rstack => _) = Except.ok (r', true) ∧ _
    rw [h.rstack]
    cases hfill : fill fs (.leaf obj) with
    | mk fs' out =>
      cases out with
      | none =>
        obtain ⟨hmove, hplug, hroomy⟩ := hnone fs' hfill
        rw [tasks, hmove]
        exact ⟨_, rfl, ⟨h.err, h.pos, rfl, hplug, sound_roomy hroomy,
          Nat.le_trans (fill_length hfill) h.depth⟩, rfl⟩
      | some t =>
        obtain ⟨hmove, hplug⟩ := hsome fs' t hfill
        rw [tasks, hmove]
        exact ⟨_, rfl, ⟨h.err, h.pos, rfl, hplug⟩, rfl⟩

theorem seek_unread (small : r.unread.length ≤ 2147483648) :
    seekNewline r.unread (r.buf.length - r.pos) = newline r.unread := by
  rw [← unread_length]
  exact seekNewline_eq _ small

theorem line_length (line rest : Bytes) :
    line.length + 2 ≤ (line ++ 13 :: 10 :: rest).length := by simp

theorem line_drop (line rest : Bytes) :
    (line ++ 13 :: 10 :: rest).drop (line.length + 2) = rest := by
  rw [← List.drop_drop]
  simp

theorem Stands.behind (h : Stands r fs type) {line rest : Bytes}
    (unread : r.unread = line ++ 13 :: 10 :: rest) :
    Stands { r with pos := r.pos + (line.length + 2) } fs type ∧
      Reader.unread { r with pos := r.pos + (line.length + 2) } = rest := by
  refine ⟨h.skip (by rw [unread]; exact line_length line rest), ?_⟩
  rw [unread_skip, unread, line_drop]

theorem readLine_eq (small : r.unread.length ≤ 2147483648) {line rest : Bytes}
    (hline : newline line = none) (unread : r.unread = line ++ 13 :: 10 :: rest) :
    r.readLine = some (r.unread, line.length, { r with pos := r.pos + (line.length + 2) }) := by
  unfold Reader.readLine
  rw [seek_unread small, unread, newline_line hline]

theorem readLine_none (small : r.unread.length ≤ 2147483648) (h : newline r.unread = none) :
    r.readLine = none := by
  unfold Reader.readLine
  rw [seek_unread small, h]

theorem line_agrees (h : Stands r fs type) (s : Reader) (cur : Task)
    (small : r.unread.length ≤ 2147483648) {line rest : Bytes} (hline : newline line = none)
    (unread : r.unread = line ++ 13 :: 10 :: rest) {type' : ReplyType}
    (htype : cur.type = some type')
    (lines : type' = .error ∨ type' = .status ∨ type' = .integer) :
    Agrees s fs (r.processLineItem cur) (ofLine (tags fs) line rest type') := by
  obtain ⟨stands, hrest⟩ := h.behind unread
  unfold Reader.processLineItem
  rw [readLine_eq small hline unread]
  have hcomplete := complete_agrees stands s
  rw [hrest] at hcomplete
  rcases lines with rfl | rfl | rfl
  · simp only [htype, createStringObject, unread, List.take_left]
    exact hcomplete (.error line)
  · simp only [htype, createStringObject, unread, List.take_left]
    exact hcomplete (.status line)
  · simp only [htype, unread, if_true, readLongLong_line, ofLine, numbered]
    cases number line with
    | error fault => rfl
    | ok n => exact hcomplete (.integer n)

theorem bulk_agrees (h : Stands r fs type) (cur : Task)
    (small : r.unread.length ≤ 2147483648) {line rest : Bytes} (hline : newline line = none)
    (unread : r.unread = line ++ 13 :: 10 :: rest) (htype : cur.type = some .string) :
    Agrees r fs (r.processBulkItem cur) (ofLine (tags fs) line rest .string) := by
  obtain ⟨stands, hrest⟩ := h.behind unread
  have hlength : r.buf.length - r.pos = line.length + 2 + rest.length := by
    rw [← unread_length, unread, List.length_append, List.length_cons, List.length_cons]
    omega
  have hpos := h.pos
  unfold Reader.processBulkItem
  rw [seek_unread small, unread, newline_line hline]
  simp only [readLongLong_line, ofLine, numbered]
  cases number line with
  | error fault => rfl
  | ok n =>
    change Agrees r fs (if n < 0 then _ else _) (bulk (tags fs) rest n)
    unfold bulk
    split
    · have hcomplete := complete_agrees stands r .nil
      rwa [hrest] at hcomplete
    · split
      · rfl
      · by_cases enough : n.toNat + 2 ≤ rest.length
        · have hskip : line.length + 2 + (n.toNat + 2) ≤ r.unread.length := by
            rw [unread_length]
            omega
          have hcomplete := complete_agrees (h.skip hskip) r (.string (rest.take n.toNat))
          rw [unread_skip, unread, ← List.drop_drop, line_drop] at hcomplete
          rw [if_pos (by omega), if_pos enough, line_drop]
          simp only [createStringObject, htype]
          exact hcomplete
        · rw [if_neg (by omega), if_neg enough]
          rfl

theorem tags_length (fs : List RespFrame) : (tags fs).length = fs.length := List.length_map _

theorem parents_length (fs : List RespFrame) : (parents fs).length = fs.length := by
  induction fs with
  | nil => rfl
  | cons f fs ih => simp [parents, ih]

theorem toInt_range (n : ℤ) : toInt n ≤ 2147483647 := by
  unfold toInt
  rw [Int.bmod_def]
  split <;> omega

theorem plug_array (fs : List RespFrame) (elements : ℤ) :
    plug fs (some (createArrayObject elements)) =
      plug (⟨elements, elements.toNat - 1, []⟩ :: fs) none := by
  rw [plug]
  congr 2
  unfold createArrayObject elementOf
  cases hn : elements.toNat with
  | zero => rfl
  | succ n => simp [elementsOf, List.replicate_succ]

theorem multiBulk_agrees (h : Stands r fs type) (s : Reader) (cur : Task)
    (hcur : cur = ⟨some .array, -1, idxOf fs⟩) (shallow : fs.length ≠ 8)
    (small : r.unread.length ≤ 2147483648) {line rest : Bytes} (hline : newline line = none)
    (unread : r.unread = line ++ 13 :: 10 :: rest) :
    Agrees s fs (r.processMultiBulkItem cur (parents fs)) (ofLine (tags fs) line rest .array) := by
  obtain ⟨stands, hrest⟩ := h.behind unread
  have hdepth := h.depth
  unfold Reader.processMultiBulkItem
  rw [parents_length, if_neg shallow, readLine_eq small hline unread]
  simp only [unread, readLongLong_line, ofLine, numbered]
  cases number line with
  | error fault => rfl
  | ok n =>
    change Agrees s fs (if n = -1 then _ else _) (multiBulk (tags fs) rest n)
    unfold multiBulk
    split
    · have hcomplete := complete_agrees stands s .nil
      rwa [hrest] at hcomplete
    · split
      · unfold made
        cases free : doomed (tags fs) with
        | true =>
          rw [attach_doomed stands free]
          rfl
        | false =>
          rw [attach_roomy stands free]
          have hroom : fs.length < 8 := by omega
          have sound : Sound (⟨toInt n, (toInt n).toNat - 1, []⟩ :: fs) := by
            refine ⟨?_, tags_doomed h.sound free⟩
            unfold Roomy
            simp only [List.length_nil, and_true]
            omega
          change ∃ r', (if fs.length < 8 then _ else _) = Except.ok (r', true) ∧ _
          rw [if_pos hroom]
          exact ⟨_, rfl, ⟨h.err, stands.pos, by rw [hcur]; rfl, plug_array fs (toInt n), sound,
            Nat.succ_le_of_lt hroom⟩, hrest⟩
      · have hcomplete := complete_agrees stands s (createArrayObject (toInt n))
        rwa [hrest] at hcomplete

theorem typed_agrees {type' : ReplyType} (h : Stands r fs (some type')) (known : type' ≠ .nil)
    (small : r.unread.length ≤ 2147483648) :
    Agrees r fs (r.processTyped ⟨some type', -1, idxOf fs⟩ (parents fs))
      (typed (tags fs) type' r.unread) := by
  by_cases deep : type' = .array ∧ (tags fs).length = 8
  · obtain ⟨rfl, hlength⟩ := deep
    rw [tags_length] at hlength
    simp only [typed, Reader.processTyped, Reader.processMultiBulkItem, parents_length, tags_length,
      hlength, and_self, if_true]
    rfl
  · have shallow : type' = .array → fs.length ≠ 8 := fun harray hlength =>
      deep ⟨harray, by rw [tags_length, hlength]⟩
    rcases line_cases r.unread with hnone | ⟨line, rest, hline, unread⟩
    · rw [typed_wait deep hnone]
      cases type' with
      | error | status | integer =>
        change r.processLineItem _ = _
        rw [Reader.processLineItem, readLine_none small hnone]
      | string =>
        change r.processBulkItem _ = _
        rw [Reader.processBulkItem, seek_unread small, hnone]
      | array =>
        change r.processMultiBulkItem _ _ = _
        rw [Reader.processMultiBulkItem, parents_length, if_neg (shallow rfl),
          readLine_none small hnone]
      | nil => exact absurd rfl known
    · rw [unread, typed_line deep hline]
      cases type' with
      | error => exact line_agrees h r _ small hline unread rfl (.inl rfl)
      | status => exact line_agrees h r _ small hline unread rfl (.inr (.inl rfl))
      | integer => exact line_agrees h r _ small hline unread rfl (.inr (.inr rfl))
      | string => exact bulk_agrees h _ small hline unread rfl
      | array => exact multiBulk_agrees h r _ rfl (shallow rfl) small hline unread
      | nil => exact absurd rfl known

inductive Head : Option ReplyType → Bytes → Prop where
  | none : Head none []
  | some {byte : UInt8} {type : ReplyType} (read : replyType byte = some type) :
      Head (some type) [byte]

/-- The reader is within the arrays of the frames with `p` before it. -/
def Holds (r : Reader) (fs : List RespFrame) (p : Bytes) : Prop :=
  ∃ type head, Stands r fs type ∧ Head type head ∧ p = head ++ r.unread

theorem replyType_ne_nil {byte : UInt8} {type' : ReplyType} (h : replyType byte = some type') :
    type' ≠ .nil := by
  rintro rfl
  unfold replyType at h
  repeat' split at h
  all_goals cases h

theorem item_agrees {p : Bytes} (h : Holds r fs p) (small : r.unread.length ≤ 2147483648) :
    ∃ s, Agrees s fs r.processItem (item (tags fs) p) ∧ Holds s fs p := by
  obtain ⟨type, head, stands, hhead, rfl⟩ := h
  unfold Reader.processItem
  rw [stands.rstack]
  cases hhead with
  | none =>
    simp only [tasks, if_true, List.nil_append]
    cases unread : r.unread with
    | nil => exact ⟨r, rfl, none, [], stands, .none, by rw [unread]; rfl⟩
    | cons byte l =>
      simp only [item]
      cases read : replyType byte with
      | none =>
        refine ⟨r, ?_, none, [], stands, .none, by rw [unread]; rfl⟩
        simp only [refused]
        cases protocolByte byte <;> rfl
      | some type' =>
        have hskip := stands.skip (n := 1) (by rw [unread]; simp)
        have stands' : Stands { r with
            pos := r.pos + 1
            rstack := ⟨some type', -1, idxOf fs⟩ :: parents fs } fs (some type') :=
          ⟨hskip.err, hskip.pos, rfl, hskip.reply, hskip.sound, hskip.depth⟩
        have hunread : Reader.unread { r with
            pos := r.pos + 1
            rstack := ⟨some type', -1, idxOf fs⟩ :: parents fs } = l := by
          have hdrop := unread_skip r 1
          rw [unread] at hdrop
          exact hdrop
        have hagrees := typed_agrees stands' (replyType_ne_nil read) (by
          rw [hunread]
          rw [unread, List.length_cons] at small
          omega)
        rw [hunread] at hagrees
        exact ⟨_, hagrees, some type', [byte], stands', .some read, by rw [hunread]; rfl⟩
  | @some byte type' read =>
    refine ⟨r, ?_, some type', [byte], stands, .some read, rfl⟩
    simp only [tasks, reduceCtorEq, if_false, List.singleton_append, item, read]
    exact typed_agrees stands (replyType_ne_nil read) small

end Items

/-! ## The buffer -/

theorem bind_ok {α β : Type} {x : Except Fault α} {f : α → Except Fault β} {b : β}
    (h : x >>= f = .ok b) : ∃ a, x = .ok a ∧ f a = .ok b := by
  cases x with
  | error fault => cases h
  | ok a => exact ⟨a, rfl, h⟩

def Shrinks (r : Reader) (result : Except Fault (Reader × Bool)) : Prop :=
  ∀ s ok, result = .ok (s, ok) → s.buf.length ≤ r.buf.length

section Buffer
variable {r s : Reader}

theorem attach_buf {obj : Reply} (h : r.attach obj = .ok s) : s.buf = r.buf := by
  obtain ⟨reply, -, h⟩ := bind_ok h
  cases h
  rfl

theorem complete_shrinks (same : s.buf = r.buf) (obj : Reply) : Shrinks r (s.complete obj) := by
  intro t ok h
  obtain ⟨u, hattach, h⟩ := bind_ok h
  obtain ⟨rstack, -, h⟩ := bind_ok h
  cases h
  exact Nat.le_of_eq (congrArg List.length ((attach_buf hattach).trans same))

theorem readLine_buf {p : Bytes} {len : ℕ} (h : r.readLine = some (p, len, s)) :
    s.buf = r.buf := by
  unfold Reader.readLine at h
  split at h
  · cases h
    rfl
  · cases h

theorem processLineItem_shrinks (cur : Task) : Shrinks r (r.processLineItem cur) := by
  intro t ok h
  unfold Reader.processLineItem at h
  split at h
  · next hline =>
    have hbuf := readLine_buf hline
    dsimp only at h
    split at h
    · obtain ⟨obj, -, h⟩ := bind_ok h
      exact complete_shrinks hbuf obj t ok h
    · obtain ⟨obj, -, h⟩ := bind_ok h
      exact complete_shrinks hbuf obj t ok h
  · cases h
    exact Nat.le_refl _

theorem processBulkItem_shrinks (cur : Task) : Shrinks r (r.processBulkItem cur) := by
  intro t ok h
  unfold Reader.processBulkItem at h
  split at h
  · obtain ⟨len, -, h⟩ := bind_ok h
    split at h
    · refine complete_shrinks ?_ _ t ok h
      rfl
    · split at h
      · cases h
      · dsimp only at h
        split at h
        · obtain ⟨obj, -, h⟩ := bind_ok h
          refine complete_shrinks ?_ obj t ok h
          rfl
        · cases h
          exact Nat.le_refl _
  · cases h
    exact Nat.le_refl _

theorem processMultiBulkItem_shrinks (cur : Task) (rest : List Task) :
    Shrinks r (r.processMultiBulkItem cur rest) := by
  intro t ok h
  unfold Reader.processMultiBulkItem at h
  split at h
  · cases h
    exact Nat.zero_le _
  · split at h
    · next hline =>
      have hbuf := readLine_buf hline
      obtain ⟨elements, -, h⟩ := bind_ok h
      split at h
      · exact complete_shrinks hbuf _ t ok h
      · split at h
        · obtain ⟨u, hattach, h⟩ := bind_ok h
          split at h
          · cases h
            exact Nat.le_of_eq (congrArg List.length ((attach_buf hattach).trans hbuf))
          · cases h
        · exact complete_shrinks hbuf _ t ok h
    · cases h
      exact Nat.le_refl _

theorem processTyped_shrinks (same : s.buf = r.buf) (cur : Task) (rest : List Task) :
    Shrinks r (s.processTyped cur rest) := by
  intro t ok h
  rw [← same]
  unfold Reader.processTyped at h
  split at h
  · exact processLineItem_shrinks cur t ok h
  · exact processLineItem_shrinks cur t ok h
  · exact processLineItem_shrinks cur t ok h
  · exact processBulkItem_shrinks cur t ok h
  · exact processMultiBulkItem_shrinks cur rest t ok h
  · cases h

theorem processItem_shrinks : Shrinks r r.processItem := by
  intro t ok h
  unfold Reader.processItem at h
  split at h
  · cases h
  · split at h
    · split at h
      · cases h
        exact Nat.le_refl _
      · split at h
        · refine processTyped_shrinks ?_ _ _ t ok h
          rfl
        · obtain ⟨sbuf, -, h⟩ := bind_ok h
          cases h
          exact Nat.zero_le _
    · exact processTyped_shrinks rfl _ _ t ok h

theorem processItems_shrinks {fuel : ℕ} (h : Reader.processItems fuel r = .ok s) :
    s.buf.length ≤ r.buf.length := by
  induction fuel generalizing r with
  | zero =>
    cases h
    exact Nat.le_refl _
  | succ fuel ih =>
    unfold Reader.processItems at h
    split at h
    · cases h
      exact Nat.le_refl _
    · obtain ⟨⟨t, ok⟩, hitem, h⟩ := bind_ok h
      have hle := processItem_shrinks t ok hitem
      dsimp only at h
      split at h
      · exact Nat.le_trans (ih h) hle
      · cases h
        exact hle

theorem sdsrange_length (s : Bytes) (start end_ : ℤ) :
    (sdsrange s start end_).length ≤ s.length := by
  unfold sdsrange
  dsimp only
  generalize (if start < 0 then max (toInt (s.length + start)) 0 else start) = a
  generalize (if end_ < 0 then max (toInt (s.length + end_)) 0 else end_) = b
  split
  · exact Nat.le_refl _
  · split
    · exact Nat.zero_le _
    · rw [List.length_take, List.length_drop]
      omega

/-- A range to the end of a string whose length fits an `int`. -/
theorem sdsrange_drop {s : Bytes} {n : ℕ} (small : s.length < 2147483648) (h : n ≤ s.length) :
    sdsrange s (toInt n) (-1) = s.drop n := by
  have hn : toInt n = n := toInt_small (by omega)
  have hlen : toInt s.length = s.length := toInt_small (by omega)
  unfold sdsrange
  dsimp only
  rw [hn, hlen, if_neg (show ¬ (n : ℤ) < 0 by omega), if_pos (show (-1 : ℤ) < 0 by decide)]
  rcases Nat.eq_zero_or_pos s.length with hzero | hpos
  · rw [if_pos (by omega), List.eq_nil_of_length_eq_zero hzero, List.drop_nil]
  · have hlast : max (toInt (s.length + -1)) 0 = ((s.length - 1 : ℕ) : ℤ) := by
      have hsub : ((s.length : ℤ) + -1) = ((s.length - 1 : ℕ) : ℤ) := by omega
      rw [hsub, toInt_small (by omega)]
      omega
    rw [hlast, if_neg (by omega)]
    rcases Nat.eq_or_lt_of_le h with rfl | hlt
    · rw [if_pos (by omega), List.drop_length]
    · rw [if_neg (by omega), if_neg (by omega)]
      refine List.take_of_length_le ?_
      rw [List.length_drop, Int.toNat_natCast]
      omega

end Buffer

/-! ## Replies -/

def Reached (result : Except Fault Reader) : Read UInt8 Reply ℤ Refusal → Prop
  | .wait fs rest => ∃ r, result = .ok r ∧ Holds r fs rest
  | .fail (.fault fault) => result = .error fault
  | .fail (.protocol text) => result = .ok (failed text)
  | .tree t rest => ∃ r, result = .ok r ∧ Done r t ∧ r.unread = rest

theorem processItems_done {r : Reader} (h : r.rstack = []) (fuel : ℕ) :
    Reader.processItems fuel r = .ok r := by
  cases fuel with
  | zero => rfl
  | succ fuel => simp [Reader.processItems, h]

theorem Holds.running {r : Reader} {fs : List RespFrame} {p : Bytes} (h : Holds r fs p) :
    r.rstack.isEmpty = false := by
  obtain ⟨type, head, stands, -, -⟩ := h
  rw [stands.rstack]
  rfl

/-- The loop does not run out of fuel. -/
theorem processItems_reached (fuel : ℕ) {r : Reader} {fs : List RespFrame} {p : Bytes}
    (h : Holds r fs p) (small : r.unread.length ≤ 2147483648) (enough : p.length < fuel) :
    Reached (Reader.processItems fuel r) (resp.read fs p) := by
  induction fuel generalizing r fs p with
  | zero => omega
  | succ fuel ih =>
    obtain ⟨s, hagrees, hs⟩ := item_agrees h small
    have hlength : p.length ≤ r.unread.length + 1 := by
      obtain ⟨type, head, -, hhead, rfl⟩ := h
      cases hhead <;> simp
    have hstep : Reader.processItems (fuel + 1) r = r.processItem >>= fun x =>
        if x.2 then Reader.processItems fuel x.1 else .ok x.1 := by
      rw [Reader.processItems, h.running]
      rfl
    rw [hstep]
    cases hitem : resp.item (tags fs) p with
    | wait =>
      rw [show item (tags fs) p = .wait from hitem] at hagrees
      rw [Format.read_wait hitem, show r.processItem = .ok (s, false) from hagrees]
      exact ⟨s, rfl, hs⟩
    | fail e =>
      rw [show item (tags fs) p = .fail e from hitem] at hagrees
      rw [Format.read_fail hitem]
      cases e with
      | fault fault => rw [show r.processItem = .error fault from hagrees]; rfl
      | protocol text => rw [show r.processItem = .ok (failed text, false) from hagrees]; rfl
    | leaf v rest =>
      have hshorter := resp.leaf_shorter hitem
      rw [show item (tags fs) p = .leaf v rest from hitem] at hagrees
      obtain ⟨r', hr', hfollows, rfl⟩ := hagrees
      rw [Format.read_leaf hitem, hr']
      change Reached (Reader.processItems fuel r') _
      cases hfill : fill fs (.leaf v) with
      | mk fs' out =>
        rw [hfill] at hfollows
        cases out with
        | some t =>
          have hdone : Done r' t := hfollows
          rw [processItems_done hdone.rstack]
          exact ⟨r', rfl, hdone, rfl⟩
        | none =>
          have hstands : Stands r' fs' none := hfollows
          exact ih ⟨none, [], hstands, .none, rfl⟩ (show r'.unread.length ≤ _ by omega)
            (by omega)
    | node g more rest =>
      have hshorter := resp.node_shorter hitem
      rw [show item (tags fs) p = .node g more rest from hitem] at hagrees
      obtain ⟨r', hr', hstands, rfl⟩ := hagrees
      rw [Format.read_node hitem, hr']
      exact ih ⟨none, [], hstands, .none, rfl⟩ (show r'.unread.length ≤ _ by omega) (by omega)

def Ready (r : Reader) (fs : List RespFrame) (p : Bytes) : Prop :=
  Holds r fs p ∨ fs = [] ∧ p = r.unread ∧ (r.err = 0 ∧ r.errstr = "") ∧ r.pos ≤ r.buf.length ∧
    r.rstack = [] ∧ r.reply = none

section Ready
variable {r : Reader} {fs : List RespFrame} {p : Bytes} {t : RespTree}

theorem Ready.err (h : Ready r fs p) : r.err = 0 := by
  obtain ⟨type, head, stands, -, -⟩ | ⟨-, -, err, -⟩ := h
  · exact stands.err.1
  · exact err.1

theorem Ready.pos (h : Ready r fs p) : r.pos ≤ r.buf.length := by
  obtain ⟨type, head, stands, -, -⟩ | ⟨-, -, -, pos, -⟩ := h
  · exact stands.pos
  · exact pos

theorem Ready.length (h : Ready r fs p) : r.unread.length ≤ p.length ∧
    p.length ≤ r.unread.length + 1 := by
  obtain ⟨type, head, -, hhead, rfl⟩ | ⟨-, rfl, -⟩ := h
  · cases hhead <;> simp
  · omega

theorem Ready.setFirst (h : Ready r fs p) :
    Holds r.setFirst fs p ∧ r.setFirst.unread = r.unread := by
  rcases h with holds | ⟨rfl, rfl, err, pos, rstack, reply⟩
  · have hsame : r.setFirst = r := by
      unfold Reader.setFirst
      rw [holds.running]
      rfl
    rw [hsame]
    exact ⟨holds, rfl⟩
  · unfold Reader.setFirst
    rw [rstack]
    exact ⟨⟨none, [], ⟨err, pos, rfl, reply, trivial, Nat.zero_le _⟩, .none, rfl⟩, rfl⟩

theorem discard_unread (small : r.buf.length < 2147483648) (h : r.pos ≤ r.buf.length) :
    r.discard.unread = r.unread := by
  unfold Reader.discard
  split
  · exact sdsrange_drop small h
  · rfl

theorem discard_pos (h : r.pos ≤ r.buf.length) : r.discard.pos ≤ r.discard.buf.length := by
  unfold Reader.discard
  split
  · exact Nat.zero_le _
  · exact h

theorem discard_length (r : Reader) : r.discard.buf.length ≤ r.buf.length := by
  unfold Reader.discard
  split
  · exact sdsrange_length _ _ _
  · exact Nat.le_refl _

theorem setFirst_buf (r : Reader) : r.setFirst.buf = r.buf := by
  unfold Reader.setFirst
  split <;> rfl

theorem getReply_length {s : Reader} {out : Option Reply} {ok : Bool}
    (h : r.redisReaderGetReply = .ok (s, out, ok)) : s.buf.length ≤ r.buf.length := by
  unfold Reader.redisReaderGetReply at h
  split at h
  · cases h
    exact Nat.le_refl _
  · split at h
    · cases h
      exact Nat.le_refl _
    · obtain ⟨t, hitems, h⟩ := bind_ok h
      have hle : t.buf.length ≤ r.buf.length := setFirst_buf r ▸ processItems_shrinks hitems
      split at h
      · cases h
        exact hle
      · dsimp only at h
        split at h <;> cases h <;> exact Nat.le_trans (discard_length t) hle

theorem discard_eq (r : Reader) : r.discard.err = r.err ∧ r.discard.errstr = r.errstr ∧
    r.discard.rstack = r.rstack ∧ r.discard.reply = r.reply := by
  unfold Reader.discard
  split <;> exact ⟨rfl, rfl, rfl, rfl⟩

theorem Holds.discard (h : Holds r fs p) (small : r.buf.length < 2147483648) :
    Holds r.discard fs p := by
  obtain ⟨type, head, stands, hhead, rfl⟩ := h
  obtain ⟨err, errstr, rstack, reply⟩ := discard_eq r
  exact ⟨type, head, ⟨by rw [err, errstr]; exact stands.err, discard_pos stands.pos,
    rstack.trans stands.rstack, reply.trans stands.reply, stands.sound, stands.depth⟩, hhead,
    by rw [discard_unread small stands.pos]⟩

def Gets (result : Except Fault (Reader × Option Reply × Bool)) :
    Read UInt8 Reply ℤ Refusal → Prop
  | .wait fs rest => ∃ r, result = .ok (r, none, true) ∧ Ready r fs rest ∧
      item (tags fs) rest = .wait
  | .fail (.fault fault) => result = .error fault
  | .fail (.protocol text) => result = .ok (failed text, none, false)
  | .tree t rest => ∃ r, result = .ok (r, some (replyOf t), true) ∧ Ready r [] rest ∧
      r.unread = rest

theorem getReply_gets (h : Ready r fs p) (small : r.buf.length < 2147483648)
    (empty : r.buf = [] → item (tags fs) p = .wait) :
    Gets r.redisReaderGetReply (resp.read fs p) := by
  unfold Reader.redisReaderGetReply
  rw [if_neg (by simp [h.err])]
  by_cases hbuf : r.buf = []
  · rw [if_pos (by simp [hbuf]), Format.read_wait (F := resp) (empty hbuf)]
    exact ⟨r, rfl, h, empty hbuf⟩
  · rw [if_neg (by simpa using hbuf)]
    obtain ⟨holds, same⟩ := h.setFirst
    have hlength := h.length
    have hunread : r.setFirst.unread.length ≤ 2147483648 := by
      rw [same, unread_length]
      omega
    have hreached := processItems_reached (r.unread.length + 2) holds hunread (by omega)
    have hbound {s : Reader}
        (hs : Reader.processItems (r.unread.length + 2) r.setFirst = .ok s) :
        s.buf.length < 2147483648 := by
      have hle := processItems_shrinks hs
      rw [setFirst_buf] at hle
      omega
    cases hread : resp.read fs p with
    | wait fs' rest =>
      rw [hread] at hreached
      obtain ⟨s, hs, hholds⟩ := hreached
      have hready : Ready s fs' rest := .inl hholds
      have holds' := hholds.discard (hbound hs)
      have running := holds'.running
      rw [hs]
      change Gets (if s.err ≠ 0 then _ else if s.discard.rstack.isEmpty then _ else _) _
      rw [if_neg (by simp [hready.err]), running]
      exact ⟨_, rfl, .inl holds', Format.read_waits hread⟩
    | fail e =>
      rw [hread] at hreached
      cases e with
      | fault fault => rw [show _ = Except.error fault from hreached]; rfl
      | protocol text => rw [show _ = Except.ok (failed text) from hreached]; rfl
    | tree t rest =>
      rw [hread] at hreached
      obtain ⟨s, hs, hdone, rfl⟩ := hreached
      obtain ⟨err, errstr, rstack, reply⟩ := discard_eq s
      have hunread := discard_unread (hbound hs) hdone.pos
      have hempty : s.discard.rstack = [] := rstack.trans hdone.rstack
      rw [hs]
      change Gets (if s.err ≠ 0 then _ else if s.discard.rstack.isEmpty then _ else _) _
      rw [if_neg (by simp [hdone.err.1]), hempty, reply, hdone.reply]
      refine ⟨_, rfl, .inr ⟨rfl, hunread.symm, ?_, discard_pos hdone.pos, rfl, rfl⟩, hunread⟩
      exact ⟨err.trans hdone.err.1, errstr.trans hdone.err.2⟩

end Ready

/-! ## The stream -/

def Stopped (result : Except Fault Reader) : Stop UInt8 Reply ℤ Refusal → Prop
  | .wait fs rest => ∃ r, result = .ok r ∧ Ready r fs rest ∧ item (tags fs) rest = .wait
  | .fail (.fault fault) => result = .error fault
  | .fail (.protocol text) => result = .ok (failed text)

def Streams (result : List Reply × Except Fault Reader)
    (drained : List RespTree × Stop UInt8 Reply ℤ Refusal) : Prop :=
  result.1 = drained.1.map replyOf ∧ Stopped result.2 drained.2

theorem replies_streams (fuel : ℕ) {r : Reader} {fs : List RespFrame} {p : Bytes}
    (h : Ready r fs p) (small : r.buf.length < 2147483648)
    (empty : r.buf = [] → item (tags fs) p = .wait) (enough : p.length < fuel) :
    Streams (r.replies fuel) (resp.drain fs p) := by
  induction fuel generalizing r fs p with
  | zero => omega
  | succ fuel ih =>
    have hgets := getReply_gets h small empty
    have hlength := h.length
    unfold Reader.replies
    cases hread : resp.read fs p with
    | wait fs' rest =>
      rw [hread] at hgets
      obtain ⟨s, hs, hready, hwait⟩ := hgets
      rw [Format.drain_wait hread, hs]
      exact ⟨rfl, s, rfl, hready, hwait⟩
    | fail e =>
      rw [hread] at hgets
      rw [Format.drain_fail hread]
      cases e with
      | fault fault =>
        rw [show r.redisReaderGetReply = .error fault from hgets]
        exact ⟨rfl, rfl⟩
      | protocol text =>
        rw [show r.redisReaderGetReply = .ok (failed text, none, false) from hgets]
        exact ⟨rfl, rfl⟩
    | tree t rest =>
      have hshorter := Format.read_shorter hread
      rw [hread] at hgets
      obtain ⟨s, hs, hready, rfl⟩ := hgets
      have hle := getReply_length hs
      have hih := ih hready (by omega) (fun hbuf => by simp [Reader.unread, hbuf, item]) (by omega)
      rw [Format.drain_tree hread, hs]
      exact ⟨by simp [hih.1], hih.2⟩

/-- What comes is put behind what is unread. -/
theorem Ready.feed {r : Reader} {fs : List RespFrame} {p : Bytes} (h : Ready r fs p) (buf : Bytes) :
    Ready { r with buf := r.buf ++ buf } fs (p ++ buf) ∧
      Reader.unread { r with buf := r.buf ++ buf } = r.unread ++ buf := by
  have hunread : Reader.unread { r with buf := r.buf ++ buf } = r.unread ++ buf :=
    List.drop_append_of_le_length h.pos
  have hpos : r.pos ≤ (r.buf ++ buf).length := by
    have hpos := h.pos
    rw [List.length_append]
    omega
  refine ⟨?_, hunread⟩
  obtain ⟨type, head, stands, hhead, rfl⟩ | ⟨rfl, rfl, err, pos, rstack, reply⟩ := h
  · exact .inl ⟨type, head,
      ⟨stands.err, hpos, stands.rstack, stands.reply, stands.sound, stands.depth⟩, hhead,
      by rw [hunread, List.append_assoc]⟩
  · exact .inr ⟨rfl, hunread.symm, err, hpos, rstack, reply⟩

theorem receive_streams {r : Reader} {fs : List RespFrame} {p : Bytes} (h : Ready r fs p)
    (waits : item (tags fs) p = .wait) (buf : Bytes)
    (small : r.buf.length + buf.length < 2147483648) :
    Streams (r.receive buf) (resp.resume buf (.wait fs p)) := by
  obtain ⟨hready, hunread⟩ := h.feed buf
  have hlength := hready.length
  unfold Reader.receive Reader.redisReaderFeed
  rw [if_neg (by simp [h.err])]
  refine replies_streams _ hready (by rw [List.length_append]; exact small) ?_ (by omega)
  intro hbuf
  obtain ⟨-, rfl⟩ := List.append_eq_nil_iff.mp hbuf
  rw [List.append_nil]
  exact waits

/-- The length of the buffer always fits an `int`. -/
def Fits : Reader → List Bytes → Prop
  | _, [] => True
  | r, buf :: bufs => r.buf.length + buf.length < 2147483648 ∧
      ∀ s, (r.receive buf).2 = .ok s → Fits s bufs

theorem failed_streams (text : String) (bufs : List Bytes) :
    (failed text).receiveAll bufs = ([], .ok (failed text)) := by
  induction bufs with
  | nil => rfl
  | cons buf bufs ih =>
    have hreceive : (failed text).receive buf = ([], .ok (failed text)) := rfl
    simp [Reader.receiveAll, hreceive, ih]

theorem resumeAll_fail (e : Refusal) (bufs : List Bytes) :
    resp.resumeAll (.fail e) bufs = ([], .fail e) := by
  induction bufs with
  | nil => rfl
  | cons buf bufs ih => simp [Format.resumeAll, Format.resume, ih]

theorem replies_length {fuel : ℕ} {r s : Reader} (h : (r.replies fuel).2 = .ok s) :
    s.buf.length ≤ r.buf.length := by
  induction fuel generalizing r with
  | zero =>
    cases h
    exact Nat.le_refl _
  | succ fuel ih =>
    unfold Reader.replies at h
    split at h
    · next hget => exact Nat.le_trans (ih h) (getReply_length hget)
    · next hget =>
      cases h
      exact getReply_length hget
    · cases h

theorem receive_length {r s : Reader} {buf : Bytes} (h : (r.receive buf).2 = .ok s) :
    s.buf.length ≤ r.buf.length + buf.length := by
  unfold Reader.receive Reader.redisReaderFeed at h
  by_cases herr : r.err = 0
  · rw [if_neg (by simp [herr])] at h
    have hle := replies_length h
    rwa [List.length_append] at hle
  · rw [if_pos herr] at h
    cases h
    omega

/-- Less than two gigabytes fit however they are cut. -/
theorem fits_of_sum {r : Reader} {bufs : List Bytes}
    (small : r.buf.length + bufs.flatten.length < 2147483648) : Fits r bufs := by
  induction bufs generalizing r with
  | nil => trivial
  | cons buf bufs ih =>
    rw [List.flatten_cons, List.length_append] at small
    refine ⟨by omega, fun s hs => ih ?_⟩
    have hle := receive_length hs
    omega

theorem receiveAll_streams {r : Reader} {fs : List RespFrame} {p : Bytes} (h : Ready r fs p)
    (waits : item (tags fs) p = .wait) {bufs : List Bytes} (fits : Fits r bufs) :
    Streams (r.receiveAll bufs) (resp.resumeAll (.wait fs p) bufs) := by
  induction bufs generalizing r fs p with
  | nil => exact ⟨rfl, r, rfl, h, waits⟩
  | cons buf bufs ih =>
    obtain ⟨small, hfits⟩ := fits
    obtain ⟨hreplies, hstop⟩ := receive_streams h waits buf small
    unfold Reader.receiveAll Format.resumeAll
    cases hreceive : r.receive buf with
    | mk rs result =>
      rw [hreceive] at hreplies hstop
      change rs = _ at hreplies
      change Stopped result _ at hstop
      cases hresume : resp.resume buf (.wait fs p) with
      | mk ts stop =>
        rw [hresume] at hreplies hstop
        cases stop with
        | wait fs' rest =>
          obtain ⟨s, rfl, hready, hwait⟩ := hstop
          have hih := ih hready hwait (hfits s (by rw [hreceive]))
          exact ⟨by simp [hreplies, hih.1], hih.2⟩
        | fail e =>
          rw [resumeAll_fail]
          cases e with
          | fault fault =>
            obtain rfl : result = .error fault := hstop
            exact ⟨by simpa using hreplies, rfl⟩
          | protocol text =>
            obtain rfl : result = .ok (failed text) := hstop
            change Streams (rs ++ ((failed text).receiveAll bufs).1,
              ((failed text).receiveAll bufs).2) _
            rw [failed_streams]
            exact ⟨by simpa using hreplies, rfl⟩

theorem create_ready : Ready redisReaderCreate [] [] :=
  .inr ⟨rfl, rfl, ⟨rfl, rfl⟩, Nat.le_refl _, rfl, rfl⟩

theorem fits_of_length {bufs : List Bytes} (small : bufs.flatten.length < 2147483648) :
    Fits redisReaderCreate bufs :=
  fits_of_sum (by simpa [redisReaderCreate] using small)

/-- The replies of a fresh reader are the trees of the whole stream. -/
theorem receiveAll_drain {bufs : List Bytes} (fits : Fits redisReaderCreate bufs) :
    Streams (redisReaderCreate.receiveAll bufs) (resp.drain [] bufs.flatten) := by
  have hwait : resp.read [] [] = .wait [] [] := Format.read_wait rfl
  have hdrain := resp.drain_flatten [] [] bufs
  rw [Format.drain_wait hwait] at hdrain
  rw [show bufs.flatten = [] ++ bufs.flatten from rfl, hdrain]
  exact receiveAll_streams create_ready rfl fits

def SameEnd : Except Fault Reader → Except Fault Reader → Prop
  | .ok r, .ok s => r.err = s.err ∧ r.errstr = s.errstr
  | .error fault, .error fault' => fault = fault'
  | _, _ => False

theorem Stopped.same {a b : Except Fault Reader} {stop : Stop UInt8 Reply ℤ Refusal}
    (ha : Stopped a stop) (hb : Stopped b stop) : SameEnd a b := by
  have calm : ∀ {r : Reader} {fs : List RespFrame} {p : Bytes}, Ready r fs p →
      r.err = 0 ∧ r.errstr = "" := by
    rintro r fs p (⟨type, head, stands, -, -⟩ | ⟨-, -, err, -⟩)
    · exact stands.err
    · exact err
  cases stop with
  | wait fs rest =>
    obtain ⟨r, rfl, hr, -⟩ := ha
    obtain ⟨s, rfl, hs, -⟩ := hb
    exact ⟨(calm hr).1.trans (calm hs).1.symm, (calm hr).2.trans (calm hs).2.symm⟩
  | fail e =>
    cases e with
    | fault fault =>
      obtain rfl : a = .error fault := ha
      obtain rfl : b = .error fault := hb
      rfl
    | protocol text =>
      obtain rfl : a = .ok (failed text) := ha
      obtain rfl : b = .ok (failed text) := hb
      exact ⟨rfl, rfl⟩

/-- However the stream is cut into reads, the replies are the same and so is the end. -/
theorem receiveAll_cut {bufs bufs' : List Bytes} (same : bufs.flatten = bufs'.flatten)
    (fits : Fits redisReaderCreate bufs) (fits' : Fits redisReaderCreate bufs') :
    (redisReaderCreate.receiveAll bufs).1 = (redisReaderCreate.receiveAll bufs').1 ∧
      SameEnd (redisReaderCreate.receiveAll bufs).2 (redisReaderCreate.receiveAll bufs').2 := by
  obtain ⟨hreplies, hstop⟩ := receiveAll_drain fits
  obtain ⟨hreplies', hstop'⟩ := receiveAll_drain fits'
  rw [same] at hreplies hstop
  exact ⟨hreplies.trans hreplies'.symm, hstop.same hstop'⟩

def pairText : Bytes := [42, 50, 13, 10, 58, 49, 13, 10, 36, 49, 13, 10, 120, 13, 10, 43]

theorem receiveAll_cut_pair :
    (redisReaderCreate.receiveAll [pairText.take 3, pairText.drop 3]).1 =
        (redisReaderCreate.receiveAll [pairText]).1 ∧
      SameEnd (redisReaderCreate.receiveAll [pairText.take 3, pairText.drop 3]).2
        (redisReaderCreate.receiveAll [pairText]).2 :=
  receiveAll_cut rfl
    (fits_of_length (by decide)) (fits_of_length (by decide))

end Hwnet.Hiredis
