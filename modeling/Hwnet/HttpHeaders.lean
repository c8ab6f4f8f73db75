import Mathlib.Data.List.MinMax
import Mathlib.Data.List.Nodup
import Hwnet.HttpSession

set_option autoImplicit false

/-!
# Headers and the way they are cut

`onHeaderField` takes a field that is not empty for a header that is finished. So a name has to come
in one piece, and that piece has to be the last before the value.
-/
namespace Hwnet.Http

def pieces (fs : List Bytes) : List Bytes := fs.filter (· ≠ [])

/-- The name comes in one piece, not counting empty ones, and an empty one follows it only where the
value is empty. -/
def Tidy (h : List Bytes × List Bytes) : Prop :=
  (pieces h.1).length = 1 ∧ (h.1.getLast? = some [] → h.2.flatten = [])

instance (h : List Bytes × List Bytes) : Decidable (Tidy h) :=
  inferInstanceAs (Decidable (_ ∧ _))

def Delivery.Tidy (d : Delivery) : Prop := ∀ h ∈ d.headers, Http.Tidy h

instance (d : Delivery) : Decidable d.Tidy := inferInstanceAs (Decidable (∀ h ∈ d.headers, _))

def joined (h : List Bytes × List Bytes) : Bytes × Bytes := (h.1.flatten, h.2.flatten)

theorem flatten_pieces (fs : List Bytes) : (pieces fs).flatten = fs.flatten :=
  List.flatten_filter_ne_nil

theorem mem_pieces {fs : List Bytes} {c : Bytes} : c ∈ pieces fs ↔ c ∈ fs ∧ c ≠ [] := by
  simp [pieces]

theorem pieces_of_length {fs : List Bytes} (one : (pieces fs).length = 1) :
    pieces fs = [fs.flatten] := by
  obtain ⟨c, hc⟩ := List.length_eq_one_iff.mp one
  have hflat := flatten_pieces fs
  rw [hc] at hflat ⊢
  rw [← hflat]
  simp

theorem piece_shorter {fs : List Bytes} {c : Bytes} (mem : c ∈ pieces fs)
    (several : (pieces fs).length ≠ 1) : c.length < fs.flatten.length := by
  rw [← flatten_pieces]
  obtain ⟨before, after, hsplit⟩ := List.append_of_mem mem
  have hne {x : Bytes} (hx : x ∈ before ++ after) : x ≠ [] := by
    have hx' : x ∈ pieces fs := by
      rw [hsplit]
      rcases List.mem_append.mp hx with h | h
      · exact List.mem_append_left _ h
      · exact List.mem_append_right _ (List.mem_cons_of_mem _ h)
    exact (mem_pieces.mp hx').2
  have hrest : before ++ after ≠ [] := by
    intro hnil
    obtain ⟨rfl, rfl⟩ := List.append_eq_nil_iff.mp hnil
    exact several (by rw [hsplit]; rfl)
  obtain ⟨x, hx⟩ := List.exists_mem_of_ne_nil _ hrest
  have hpos := List.length_pos_iff.mpr (hne hx)
  have hle : x.length ≤ (before ++ after).flatten.length :=
    (List.sublist_flatten_of_mem hx).length_le
  rw [hsplit]
  simp only [List.flatten_append, List.flatten_cons, List.length_append] at hle ⊢
  omega

/-! ## The map once what has been received is flushed -/

namespace HttpPacket

variable {k : HttpPacket} {x c v : Bytes}

def settled (k : HttpPacket) : Headers := k.flush.headers

def Clean (k : HttpPacket) : Prop := k.field = [] → k.value = []

theorem compare_eq_iff {a b : Bytes} : compare a b = .eq ↔ a = b :=
  Std.LawfulEqCmp.compare_eq_iff_eq

theorem settled_eq (k : HttpPacket) :
    k.settled = if k.field = [] then k.headers else k.headers.insert k.field k.value := by
  unfold settled flush
  cases k.field <;> rfl

theorem flush_field (k : HttpPacket) : k.flush.field = [] := by
  unfold flush
  cases h : k.field
  · exact h
  · rfl

theorem flush_value (clean : k.Clean) : k.flush.value = [] := by
  unfold flush
  cases h : k.field
  · exact clean h
  · rfl

theorem field_onHeaderField (k : HttpPacket) (c : Bytes) : (k.onHeaderField c).field = c := by
  simp [onHeaderField, flush_field]

theorem headers_onHeaderField (k : HttpPacket) (c : Bytes) :
    (k.onHeaderField c).headers = k.settled := rfl

theorem value_onHeaderField (clean : k.Clean) (c : Bytes) : (k.onHeaderField c).value = [] :=
  flush_value clean

theorem mem_onHeaderField : x ∈ (k.onHeaderField c).settled ↔ x ∈ k.settled ∨ x = c ∧ c ≠ [] := by
  rw [settled_eq, field_onHeaderField, headers_onHeaderField]
  split
  · rename_i hc
    simp [hc]
  · rename_i hc
    rw [Std.ExtTreeMap.mem_insert, compare_eq_iff]
    exact ⟨fun h => h.symm.imp_right fun h => ⟨h.symm, hc⟩,
      fun h => h.symm.imp_left fun h => h.1.symm⟩

theorem mem_onHeaderValue : x ∈ (k.onHeaderValue v).settled ↔ x ∈ k.settled := by
  rw [settled_eq, settled_eq]
  show x ∈ (if k.field = [] then k.headers else k.headers.insert k.field (k.value ++ v)) ↔ _
  split
  · exact Iff.rfl
  · rw [Std.ExtTreeMap.mem_insert, Std.ExtTreeMap.mem_insert]

theorem mem_onHeader {h : List Bytes × List Bytes} :
    x ∈ (k.onHeader h).settled ↔ x ∈ k.settled ∨ x ∈ pieces h.1 := by
  obtain ⟨fs, vs⟩ := h
  have hfields (k : HttpPacket) : x ∈ (fs.foldl onHeaderField k).settled ↔
      x ∈ k.settled ∨ x ∈ pieces fs := by
    induction fs generalizing k with
    | nil => simp [pieces]
    | cons c fs ih =>
      rw [List.foldl_cons, ih, mem_onHeaderField]
      simp only [mem_pieces, List.mem_cons]
      grind
  have hvalues (k : HttpPacket) : x ∈ (vs.foldl onHeaderValue k).settled ↔ x ∈ k.settled := by
    induction vs generalizing k with
    | nil => exact Iff.rfl
    | cons v vs ih => rw [List.foldl_cons, ih, mem_onHeaderValue]
  exact (hvalues _).trans (hfields k)

theorem mem_headers {l : List (List Bytes × List Bytes)} :
    x ∈ (l.foldl onHeader k).settled ↔ x ∈ k.settled ∨ ∃ h ∈ l, x ∈ pieces h.1 := by
  induction l generalizing k with
  | nil => simp
  | cons h l ih =>
    rw [List.foldl_cons, ih, mem_onHeader]
    simp [or_assoc]

/-! ## One header after another -/

def insertAll (t : Headers) (l : List (Bytes × Bytes)) : Headers :=
  l.foldl (fun t h => t.insert h.1 h.2) t

theorem mem_insertAll {t : Headers} {l : List (Bytes × Bytes)} :
    x ∈ insertAll t l ↔ x ∈ t ∨ x ∈ l.map Prod.fst := by
  unfold insertAll
  induction l generalizing t with
  | nil => simp
  | cons h l ih =>
    rw [List.foldl_cons, ih, Std.ExtTreeMap.mem_insert, compare_eq_iff]
    simp only [List.map_cons, List.mem_cons]
    grind

theorem get_insertAll {t : Headers} {l : List (Bytes × Bytes)} (absent : x ∉ l.map Prod.fst) :
    (insertAll t l)[x]? = t[x]? := by
  unfold insertAll
  induction l generalizing t with
  | nil => rfl
  | cons h l ih =>
    simp only [List.map_cons, List.mem_cons, not_or] at absent
    rw [List.foldl_cons, ih absent.2, Std.ExtTreeMap.getElem?_insert,
      if_neg fun heq => absent.1 (compare_eq_iff.mp heq).symm]

theorem clean_onHeaderField (clean : k.Clean) (c : Bytes) : (k.onHeaderField c).Clean :=
  fun _ => value_onHeaderField clean c

theorem settled_onHeaderField (clean : k.Clean) (c : Bytes) : (k.onHeaderField c).settled =
    if c = [] then k.settled else k.settled.insert c [] := by
  rw [settled_eq, field_onHeaderField, headers_onHeaderField, value_onHeaderField clean]

theorem settled_fields (clean : k.Clean) (fs : List Bytes) :
    (fs.foldl onHeaderField k).Clean ∧
    (fs.foldl onHeaderField k).settled = insertAll k.settled ((pieces fs).map (·, [])) := by
  induction fs generalizing k with
  | nil => exact ⟨clean, rfl⟩
  | cons c fs ih =>
    obtain ⟨hclean, hsettled⟩ := ih (clean_onHeaderField clean c)
    refine ⟨hclean, ?_⟩
    rw [List.foldl_cons, hsettled, settled_onHeaderField clean]
    by_cases hc : c = []
    · simp [pieces, hc]
    · simp [pieces, hc, insertAll]

theorem values_eq (vs : List Bytes) :
    vs.foldl onHeaderValue k = { k with value := k.value ++ vs.flatten } := by
  induction vs generalizing k with
  | nil => simp
  | cons v vs ih => simp [ih, onHeaderValue]

/-- The name in one piece, from a state without a dangling value. What is left open is the field
where the last piece was the name, and the value where it was not. -/
theorem onHeader_one {h : List Bytes × List Bytes} (clean : k.Clean)
    (one : (pieces h.1).length = 1) : (k.onHeader h).settled =
      k.settled.insert h.1.flatten (if h.1.getLast? = some [] then [] else h.2.flatten) ∧
    (k.onHeader h).field = (h.1.getLast?.getD []) ∧ (k.onHeader h).value = h.2.flatten := by
  obtain ⟨fs, vs⟩ := h
  have hname : pieces fs = [fs.flatten] := pieces_of_length one
  have hne : fs ≠ [] := by
    rintro rfl
    cases hname
  obtain ⟨init, c, rfl⟩ : ∃ init c, fs = init ++ [c] :=
    ⟨fs.dropLast, fs.getLast hne, (List.dropLast_append_getLast hne).symm⟩
  obtain ⟨hclean, hinit⟩ := settled_fields clean init
  have hlast : (k.onHeader (init ++ [c], vs)) =
      { (init.foldl onHeaderField k).onHeaderField c with value := vs.flatten } := by
    simp only [onHeader, List.foldl_append, List.foldl_cons, List.foldl_nil, values_eq,
      value_onHeaderField hclean, List.nil_append]
  have hpieces : pieces (init ++ [c]) = pieces init ++ pieces [c] := List.filter_append ..
  rw [hlast, settled_eq]
  simp only [field_onHeaderField, headers_onHeaderField, hinit, List.getLast?_concat,
    Option.getD_some, Option.some.injEq]
  refine ⟨?_, trivial, trivial⟩
  by_cases hc : c = []
  · subst hc
    have hwhole : pieces init = [(init ++ [[]]).flatten] := by
      rw [← hname, hpieces]
      simp [pieces]
    simp [hwhole, insertAll]
  · have hnone : pieces init = [] := by
      rw [hpieces] at one
      simpa [pieces, hc] using one
    have hwhole : (init ++ [c]).flatten = c := by
      rw [← flatten_pieces, hpieces, hnone]
      simp [pieces, hc]
    simp [hc, hnone, hwhole, insertAll]

theorem onHeader_tidy {h : List Bytes × List Bytes} (clean : k.Clean) (tidy : Tidy h) :
    (k.onHeader h).Clean ∧ (k.onHeader h).settled = k.settled.insert h.1.flatten h.2.flatten := by
  obtain ⟨hsettled, hfield, hvalue⟩ := onHeader_one clean tidy.1
  by_cases hlast : h.1.getLast? = some []
  · rw [if_pos hlast] at hsettled
    rw [tidy.2 hlast] at hvalue ⊢
    exact ⟨fun _ => hvalue, hsettled⟩
  · rw [if_neg hlast] at hsettled
    refine ⟨fun hopen => ?_, hsettled⟩
    rw [hfield] at hopen
    cases hget : h.1.getLast? with
    | none =>
      have hone := tidy.1
      rw [List.getLast?_eq_none_iff.mp hget] at hone
      cases hone
    | some c =>
      rw [hget, Option.getD_some] at hopen
      exact absurd (hget.trans (congrArg some hopen)) hlast

theorem headers_tidy {l : List (List Bytes × List Bytes)} (clean : k.Clean)
    (tidy : ∀ h ∈ l, Tidy h) : (l.foldl onHeader k).Clean ∧
      (l.foldl onHeader k).settled = insertAll k.settled (l.map joined) := by
  induction l generalizing k with
  | nil => exact ⟨clean, rfl⟩
  | cons h l ih =>
    obtain ⟨hclean, hsettled⟩ := onHeader_tidy clean (tidy h List.mem_cons_self)
    have hrest := ih hclean fun x hx => tidy x (List.mem_cons_of_mem _ hx)
    rw [hsettled] at hrest
    exact hrest

/-! ## What a cut in a name changes -/

theorem get_headers {l : List (List Bytes × List Bytes)} (name : x ≠ []) (closed : k.field ≠ x)
    (absent : ∀ h ∈ l, x ∉ pieces h.1) : (l.foldl onHeader k).settled[x]? = k.settled[x]? := by
  have hfields {fs : List Bytes} {k : HttpPacket} (closed : k.field ≠ x) (absent : x ∉ pieces fs) :
      (fs.foldl onHeaderField k).settled[x]? = k.settled[x]? ∧
      (fs.foldl onHeaderField k).field ≠ x := by
    induction fs generalizing k with
    | nil => exact ⟨rfl, closed⟩
    | cons c fs ih =>
      simp only [mem_pieces, List.mem_cons, not_and, not_not] at absent
      have hc : c ≠ x := fun h => name (absent (.inl h.symm))
      have hrest : x ∉ pieces fs := fun h => name (absent (.inr (mem_pieces.mp h).1))
      obtain ⟨hget, hopen⟩ := ih (k := k.onHeaderField c)
        (by rw [field_onHeaderField]; exact hc) hrest
      refine ⟨hget.trans ?_, hopen⟩
      rw [settled_eq (k.onHeaderField c), field_onHeaderField, headers_onHeaderField]
      split
      · rfl
      · rw [Std.ExtTreeMap.getElem?_insert, if_neg fun h => hc (compare_eq_iff.mp h)]
  have hvalues (vs : List Bytes) {k : HttpPacket} (closed : k.field ≠ x) :
      (vs.foldl onHeaderValue k).settled[x]? = k.settled[x]? ∧
      (vs.foldl onHeaderValue k).field ≠ x := by
    rw [values_eq, settled_eq, settled_eq]
    refine ⟨?_, closed⟩
    dsimp only
    split
    · rfl
    · rw [Std.ExtTreeMap.getElem?_insert, Std.ExtTreeMap.getElem?_insert,
        if_neg fun h => closed (compare_eq_iff.mp h), if_neg fun h => closed (compare_eq_iff.mp h)]
  induction l generalizing k with
  | nil => rfl
  | cons h l ih =>
    obtain ⟨hget, hopen⟩ := hfields closed (absent h List.mem_cons_self)
    obtain ⟨hget', hopen'⟩ := hvalues h.2 hopen
    have hrest := ih hopen' fun h hh => absent h (List.mem_cons_of_mem _ hh)
    exact hrest.trans (hget'.trans hget)

variable {l : List (List Bytes × List Bytes)}

/-- The longest of the names that are cut is in no piece, so it is missing. -/
theorem one_of_same (empty : k.settled = ∅) (distinct : (l.map fun h => h.1.flatten).Nodup)
    (same : (l.foldl onHeader k).settled = insertAll ∅ (l.map joined)) :
    ∀ h ∈ l, (pieces h.1).length = 1 := by
  by_contra hcut
  simp only [not_forall] at hcut
  obtain ⟨h₀, hmem₀, hcut₀⟩ := hcut
  let cut := l.filter fun h => (pieces h.1).length ≠ 1
  have hcutne : cut ≠ [] := List.ne_nil_of_mem (List.mem_filter.mpr ⟨hmem₀, by simpa using hcut₀⟩)
  obtain ⟨h, hmax⟩ : ∃ h, h ∈ List.argmax (fun h => h.1.flatten.length) cut :=
    Option.ne_none_iff_exists'.mp fun hnone => hcutne (List.argmax_eq_none.mp hnone)
  have hmem : h ∈ l ∧ (pieces h.1).length ≠ 1 := by
    simpa [cut] using List.argmax_mem hmax
  have hname : h.1.flatten ∈ (l.foldl onHeader k).settled := by
    rw [same, mem_insertAll]
    exact .inr (by simpa [joined] using ⟨h.1, ⟨h.2, hmem.1⟩, rfl⟩)
  rw [mem_headers, empty] at hname
  obtain ⟨h', hmem', hpiece⟩ := hname.resolve_left Std.ExtTreeMap.not_mem_empty
  by_cases hone : (pieces h'.1).length = 1
  · have hsame : h'.1.flatten = h.1.flatten := by
      rw [pieces_of_length hone] at hpiece
      exact (List.mem_singleton.mp hpiece).symm
    rw [List.inj_on_of_nodup_map distinct hmem' hmem.1 hsame] at hone
    exact hmem.2 hone
  · have hshorter := piece_shorter hpiece hone
    have hlonger : h'.1.flatten.length ≤ h.1.flatten.length :=
      List.le_of_mem_argmax (f := fun h : List Bytes × List Bytes => h.1.flatten.length)
        (List.mem_filter.mpr ⟨hmem', by simpa using hone⟩) hmax
    omega

/-- The first header with its name closed too early is there without its value. -/
theorem tidy_of_same (clean : k.Clean) (distinct : (l.map fun h => h.1.flatten).Nodup)
    (one : ∀ h ∈ l, (pieces h.1).length = 1)
    (same : (l.foldl onHeader k).settled = insertAll k.settled (l.map joined)) :
    ∀ h ∈ l, Tidy h := by
  induction l generalizing k with
  | nil => nofun
  | cons h l ih =>
    obtain ⟨hfresh, hdistinct⟩ := List.nodup_cons.mp distinct
    have hone := one h List.mem_cons_self
    have hrest : ∀ h ∈ l, (pieces h.1).length = 1 := fun x hx => one x (List.mem_cons_of_mem _ hx)
    have htidy : Tidy h := by
      refine ⟨hone, fun hlast => ?_⟩
      obtain ⟨hsettled, hfield, -⟩ := onHeader_one clean hone
      rw [if_pos hlast] at hsettled
      rw [hlast, Option.getD_some] at hfield
      have hne : h.1.flatten ≠ [] := by
        have hmem : h.1.flatten ∈ pieces h.1 := by
          rw [pieces_of_length hone]
          exact List.mem_singleton_self _
        exact (mem_pieces.mp hmem).2
      have habsent : ∀ x ∈ l, h.1.flatten ∉ pieces x.1 := by
        intro x hx hpiece
        rw [pieces_of_length (hrest x hx)] at hpiece
        exact hfresh (List.mem_map.mpr ⟨x, hx, (List.mem_singleton.mp hpiece).symm⟩)
      have hleft : ((h :: l).foldl onHeader k).settled[h.1.flatten]? = some [] := by
        rw [List.foldl_cons, get_headers hne (by rw [hfield]; exact hne.symm) habsent, hsettled,
          Std.ExtTreeMap.getElem?_insert_self]
      have hright : (insertAll k.settled ((h :: l).map joined))[h.1.flatten]? =
          some h.2.flatten := by
        have hnone : h.1.flatten ∉ (l.map joined).map Prod.fst := by
          simpa [joined] using hfresh
        show (insertAll (k.settled.insert h.1.flatten h.2.flatten) (l.map joined))[_]? = _
        rw [get_insertAll hnone, Std.ExtTreeMap.getElem?_insert_self]
      rw [same, hright] at hleft
      exact Option.some.inj hleft
    obtain ⟨hclean, hsettled⟩ := onHeader_tidy clean htidy
    intro x hx
    rcases List.mem_cons.mp hx with rfl | hx
    · exact htidy
    · refine ih hclean hdistinct hrest ?_ x hx
      rw [hsettled]
      exact same

/-! ## The packet of a delivery -/

theorem urls_eq (us : List Bytes) : us.foldl onUrl k = { k with url := k.url ++ us.flatten } := by
  induction us generalizing k with
  | nil => simp
  | cons u us ih => simp [ih, onUrl]

theorem statuses_spec (us : List Bytes) (code : UInt32) : ∃ statusCode,
    us.foldl (·.onStatus · code) k = { k with status := k.status ++ us.flatten, statusCode } := by
  induction us generalizing k with
  | nil => exact ⟨k.statusCode, by simp⟩
  | cons u us ih =>
    obtain ⟨statusCode, h⟩ := ih (k := k.onStatus u code)
    refine ⟨statusCode, ?_⟩
    rw [List.foldl_cons, h]
    simp [onStatus]

theorem flush_frame (k : HttpPacket) : k.flush.url = k.url ∧ k.flush.status = k.status := by
  unfold flush
  split <;> exact ⟨rfl, rfl⟩

theorem headers_keep {α : Type} (part : HttpPacket → α)
    (field : ∀ k c, part (k.onHeaderField c) = part k)
    (value : ∀ k c, part (k.onHeaderValue c) = part k)
    (l : List (List Bytes × List Bytes)) (k : HttpPacket) :
    part (l.foldl onHeader k) = part k := by
  have hall (f : HttpPacket → Bytes → HttpPacket) (keeps : ∀ k c, part (f k c) = part k)
      (cs : List Bytes) (k : HttpPacket) : part (cs.foldl f k) = part k := by
    induction cs generalizing k with
    | nil => rfl
    | cons c cs ih => exact (ih (f k c)).trans (keeps k c)
  induction l generalizing k with
  | nil => rfl
  | cons h l ih =>
    exact (ih (k.onHeader h)).trans ((hall onHeaderValue value h.2 _).trans
      (hall onHeaderField field h.1 k))

theorem headers_frame (l : List (List Bytes × List Bytes)) :
    (l.foldl onHeader k).url = k.url ∧ (l.foldl onHeader k).status = k.status :=
  ⟨headers_keep HttpPacket.url (fun k _ => (flush_frame k).1) (fun _ _ => rfl) l k,
    headers_keep HttpPacket.status (fun k _ => (flush_frame k).2) (fun _ _ => rfl) l k⟩

end HttpPacket

/-- `k` is the packet at the end of the header block, in a session that was started and may have
seen any messages before. -/
def Delivery.Received (d : Delivery) (k : HttpPacket) : Prop :=
  ∃ (parser : Parser) (s t : HttpSession) (method statusCode : UInt32) (onBody : Option Callback),
    s.callback ≠ none ∧ s.run parser (d.calls method statusCode onBody) = some t ∧
      t.current = some k

theorem received_spec {d : Delivery} {k : HttpPacket} (h : d.Received k) :
    k.url = d.message.url ∧ k.status = d.message.status ∧
    ∃ k₀ : HttpPacket, k₀.Clean ∧ k₀.settled = ∅ ∧
      k.headers = (d.headers.foldl HttpPacket.onHeader k₀).settled ∧
      k.value = (d.headers.foldl HttpPacket.onHeader k₀).flush.value := by
  obtain ⟨parser, s, t, method, statusCode, onBody, ready, hrun, hcurrent⟩ := h
  obtain ⟨t', hrun', hcurrent'⟩ := HttpSession.run_calls parser ready d method statusCode onBody
  cases hrun.symm.trans hrun'
  cases hcurrent.symm.trans hcurrent'
  obtain ⟨k₀, hstart, hurl, hstatus, hclean, hempty⟩ : ∃ k₀, d.status.foldl
      (·.onStatus · parser.statusCode.toUInt32)
        (d.url.foldl HttpPacket.onUrl (HttpPacket.new method statusCode)) = k₀ ∧
      k₀.url = d.url.flatten ∧ k₀.status = d.status.flatten ∧ k₀.Clean ∧ k₀.settled = ∅ := by
    obtain ⟨code, h⟩ := HttpPacket.statuses_spec
      (k := d.url.foldl HttpPacket.onUrl (HttpPacket.new method statusCode)) d.status
      parser.statusCode.toUInt32
    rw [HttpPacket.urls_eq] at h ⊢
    exact ⟨_, h, rfl, rfl, fun _ => rfl, rfl⟩
  obtain ⟨hurl', hstatus'⟩ := HttpPacket.headers_frame (k := k₀) d.headers
  obtain ⟨hurl'', hstatus''⟩ := HttpPacket.flush_frame (d.headers.foldl HttpPacket.onHeader k₀)
  unfold HttpPacket.onData
  rw [hstart]
  exact ⟨hurl''.trans (hurl'.trans hurl), hstatus''.trans (hstatus'.trans hstatus),
    k₀, hclean, hempty, rfl, rfl⟩

/-- Two tidy deliveries of a header block give the same packet; and where the names are distinct,
any other delivery gives other headers. -/
theorem headers_cut {d d' : Delivery} {k k' : HttpPacket} (same : d.message = d'.message)
    (tidy : d'.Tidy) (h : d.Received k) (h' : d'.Received k') :
    (d.Tidy → k.headers = k'.headers ∧ k.url = k'.url ∧ k.status = k'.status) ∧
    ((d.message.headers.map Prod.fst).Nodup → k.headers = k'.headers → d.Tidy) := by
  obtain ⟨hurl, hstatus, k₀, hclean, hempty, hheaders, -⟩ := received_spec h
  obtain ⟨hurl', hstatus', k₀', hclean', hempty', hheaders', -⟩ := received_spec h'
  have hwhole : k'.headers = HttpPacket.insertAll ∅ (d.headers.map joined) := by
    have hmessage : d.headers.map joined = d'.headers.map joined := congrArg Message.headers same
    rw [hheaders', (HttpPacket.headers_tidy hclean' tidy).2, hempty', hmessage]
  constructor
  · intro htidy
    refine ⟨?_, by rw [hurl, hurl', same], by rw [hstatus, hstatus', same]⟩
    rw [hwhole, hheaders, (HttpPacket.headers_tidy hclean htidy).2, hempty]
  · intro hdistinct hsame
    have hnames : (d.headers.map fun h => h.1.flatten).Nodup := by
      rw [Delivery.message, List.map_map] at hdistinct
      exact hdistinct
    have hlast := hheaders.symm.trans (hsame.trans hwhole)
    refine HttpPacket.tidy_of_same hclean hnames
      (HttpPacket.one_of_same hempty hnames hlast) ?_
    rw [hempty]
    exact hlast

def served : HttpSession := ⟨.ServerSide, some 1, none, [], none, []⟩

def parsed : Parser := ⟨0, 1, 1⟩

theorem received_of_run {d : Delivery} {k : HttpPacket}
    (h : (served.run parsed (d.calls 0 0 none)).bind HttpSession.current = some k) :
    d.Received k := by
  obtain ⟨t, ht, hk⟩ := Option.bind_eq_some_iff.mp h
  exact ⟨parsed, served, t, 0, 0, none, nofun, ht, hk⟩

def inOneRead : Delivery where
  url := [ascii "/ab"]
  status := []
  headers := [([ascii "Host"], [ascii "xy"]), ([ascii "A"], [[]])]

def inReads : Delivery where
  url := [ascii "/a", ascii "b"]
  status := []
  headers := [([ascii "Host"], [ascii "x", ascii "y"]), ([[], ascii "A", []], [[]])]

theorem headers_cut_reads : ∃ k k' : HttpPacket, inReads.Received k ∧ inOneRead.Received k' ∧
    k.headers.toList = [(ascii "A", []), (ascii "Host", ascii "xy")] ∧
    k.headers = k'.headers ∧ k.url = k'.url ∧ k.status = k'.status := by
  have h : ((served.run parsed (inReads.calls 0 0 none)).bind HttpSession.current).map
      (fun k => k.headers.toList) = some [(ascii "A", []), (ascii "Host", ascii "xy")] := by decide
  have h' : ((served.run parsed (inOneRead.calls 0 0 none)).bind HttpSession.current).isSome := by
    decide
  obtain ⟨k, hk, hlist⟩ := Option.map_eq_some_iff.mp h
  obtain ⟨k', hk'⟩ := Option.isSome_iff_exists.mp h'
  exact ⟨k, k', received_of_run hk, received_of_run hk', hlist,
    (headers_cut (by decide) (by decide) (received_of_run hk) (received_of_run hk')).1 (by decide)⟩

def cutInName : Delivery where
  url := [ascii "/ab"]
  status := []
  headers := [([ascii "Ho", ascii "st"], [ascii "xy"]), ([ascii "A"], [[]])]

theorem header_lost : cutInName.message = inOneRead.message ∧ ∃ k k' : HttpPacket,
    cutInName.Received k ∧ inOneRead.Received k' ∧
    k.headers.toList = [(ascii "A", []), (ascii "Ho", []), (ascii "st", ascii "xy")] ∧
    k'.headers.toList = [(ascii "A", []), (ascii "Host", ascii "xy")] ∧
    k.headers ≠ k'.headers := by
  have h : ((served.run parsed (cutInName.calls 0 0 none)).bind HttpSession.current).map
      (fun k => k.headers.toList) =
      some [(ascii "A", []), (ascii "Ho", []), (ascii "st", ascii "xy")] := by decide
  have h' : ((served.run parsed (inOneRead.calls 0 0 none)).bind HttpSession.current).map
      (fun k => k.headers.toList) = some [(ascii "A", []), (ascii "Host", ascii "xy")] := by decide
  obtain ⟨k, hk, hlist⟩ := Option.map_eq_some_iff.mp h
  obtain ⟨k', hk', hlist'⟩ := Option.map_eq_some_iff.mp h'
  refine ⟨by decide, k, k', received_of_run hk, received_of_run hk', hlist, hlist', fun hsame => ?_⟩
  rw [← hsame, hlist] at hlist'
  revert hlist'
  decide

end Hwnet.Http
