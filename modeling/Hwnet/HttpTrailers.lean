import Hwnet.HttpMessages

set_option autoImplicit false

/-!
# Trailers

A header goes to the map when the next event shows that it has ended. After the last trailer that
event is `on_message_complete`, which does not look.
-/
namespace Hwnet.Http

namespace Incoming

def fields (m : Incoming) : List (List Bytes × List Bytes) := m.head.headers ++ m.framing.trailers

def packet (m : Incoming) (s : HttpSession) : Option HttpPacket := do
  let t ← m.serve s
  t.packets[s.packets.length]?

def Whole (h : List Bytes × List Bytes) : Prop := ∃ name, name ≠ [] ∧ h.1 = [name]

end Incoming

namespace HttpPacket

variable {k : HttpPacket}

theorem tidy_of_whole {h : List Bytes × List Bytes} (whole : Incoming.Whole h) : Tidy h := by
  obtain ⟨name, hname, hfirst⟩ := whole
  rw [Tidy, hfirst]
  refine ⟨by simp [pieces, hname], fun hlast => ?_⟩
  exact absurd (Option.some.inj hlast) hname

theorem get_insertAll_of_mem {t : Headers} {l : List (Bytes × Bytes)} {x : Bytes × Bytes}
    (distinct : (l.map Prod.fst).Nodup) (mem : x ∈ l) : (insertAll t l)[x.1]? = some x.2 := by
  induction l generalizing t with
  | nil => nomatch mem
  | cons h l ih =>
    obtain ⟨hfresh, hrest⟩ := List.nodup_cons.mp distinct
    show (insertAll (t.insert h.1 h.2) l)[x.1]? = some x.2
    rcases List.mem_cons.mp mem with rfl | hx
    · rw [get_insertAll hfresh, Std.ExtTreeMap.getElem?_insert_self]
    · exact ih hrest hx

/-- A header that is still open is not in the map. -/
theorem headers_onHeader {h : List Bytes × List Bytes} (whole : Incoming.Whole h) :
    (k.onHeader h).headers = k.settled := by
  obtain ⟨name, -, hfirst⟩ := whole
  rw [onHeader, values_eq, hfirst]
  rfl

theorem received_settled (m : Incoming) (tidy : ∀ h ∈ m.head.headers, Tidy h) :
    m.received.Clean ∧ m.received.settled = m.received.headers ∧
    m.received.headers = insertAll ∅ (m.head.headers.map joined) := by
  have hclosed : m.received.field = [] := flush_field _
  have hready : (HttpSession.client 0).callback = some 0 := rfl
  have hreceived : m.head.Received m.received :=
    ⟨m.parser, HttpSession.client 0, _, m.method, m.statusCode, m.onBody, nofun,
      HttpSession.run_head hready m, HttpSession.receiving_current⟩
  obtain ⟨-, -, k₀, hclean, hempty, hheaders, hvalue⟩ := received_spec hreceived
  obtain ⟨hlast, hall⟩ := headers_tidy hclean tidy
  refine ⟨fun _ => ?_, ?_, ?_⟩
  · rw [hvalue, flush_value hlast]
  · rw [settled_eq, if_pos hclosed]
  · rw [hheaders, hall, hempty]

end HttpPacket

namespace Incoming

theorem packet_eq {s : HttpSession} {cb : Callback} (ready : s.callback = some cb)
    (m : Incoming) : m.packet s = some m.completed := by
  simp [packet, HttpSession.run_message ready, HttpSession.after]

theorem names_eq (l : List (List Bytes × List Bytes)) :
    (l.map joined).map Prod.fst = l.map fun h => h.1.flatten := List.map_map

/-- The map at the end of a message, but for the last trailer. -/
theorem completed_headers {m : Incoming} (whole : ∀ h ∈ m.fields, Whole h) :
    m.completed.headers =
      HttpPacket.insertAll ∅ ((m.head.headers ++ m.framing.trailers.dropLast).map joined) := by
  have hhead : ∀ h ∈ m.head.headers, Tidy h := fun h hh =>
    HttpPacket.tidy_of_whole (whole h (List.mem_append_left _ hh))
  obtain ⟨hclean, hsettled, hheaders⟩ := HttpPacket.received_settled m hhead
  rw [completed]
  rcases List.eq_nil_or_concat m.framing.trailers with hnone | ⟨init, last, hsplit⟩
  · rw [hnone, List.dropLast_nil, List.append_nil]
    exact hheaders
  · rw [List.concat_eq_append] at hsplit
    have hmem {h : List Bytes × List Bytes} (hh : h ∈ init ++ [last]) : Whole h :=
      whole h (List.mem_append_right _ (hsplit ▸ hh))
    have hinit : ∀ h ∈ init, Tidy h := fun h hh =>
      HttpPacket.tidy_of_whole (hmem (List.mem_append_left _ hh))
    rw [hsplit, List.foldl_append, List.foldl_cons, List.foldl_nil,
      HttpPacket.headers_onHeader (hmem (List.mem_append_right _ (List.mem_singleton_self _))),
      (HttpPacket.headers_tidy hclean hinit).2, hsettled, hheaders, List.dropLast_concat,
      List.map_append]
    exact List.foldl_append.symm

end Incoming

/-- Where each name is distinct and comes in one callback, a message keeps every field of both its
blocks if and only if it has no trailer. -/
theorem fields_kept_iff {s : HttpSession} {m : Incoming} (ready : s.callback ≠ none)
    (whole : ∀ h ∈ m.fields, Incoming.Whole h)
    (distinct : (m.fields.map fun h => h.1.flatten).Nodup) : ∃ k, m.packet s = some k ∧
    ((∀ h ∈ m.fields, k.headers[h.1.flatten]? = some h.2.flatten) ↔ m.framing.trailers = []) := by
  obtain ⟨cb, hcb⟩ := Option.ne_none_iff_exists'.mp ready
  refine ⟨_, Incoming.packet_eq hcb m, ?_⟩
  rw [Incoming.completed_headers whole]
  constructor
  · intro kept
    by_contra hne
    obtain ⟨init, last, hsplit⟩ := (List.eq_nil_or_concat m.framing.trailers).resolve_left hne
    rw [List.concat_eq_append] at hsplit
    have hlast := kept last (by simp [Incoming.fields, hsplit])
    have hfresh : last.1.flatten ∉
        ((m.head.headers ++ m.framing.trailers.dropLast).map joined).map Prod.fst := by
      rw [Incoming.fields, hsplit, ← List.append_assoc, List.map_append,
        List.nodup_append] at distinct
      rw [Incoming.names_eq, hsplit, List.dropLast_concat]
      exact fun hmem => distinct.2.2 _ hmem _ (by simp) rfl
    rw [HttpPacket.get_insertAll hfresh] at hlast
    simp at hlast
  · intro hnone h hmem
    rw [hnone, List.dropLast_nil]
    rw [Incoming.fields, hnone] at distinct hmem
    rw [← Incoming.names_eq] at distinct
    exact HttpPacket.get_insertAll_of_mem distinct (List.mem_map_of_mem hmem)

def trailing : Incoming where
  parser := ⟨200, 1, 1⟩
  head := ⟨[], [ascii "OK"], [([ascii "A"], [ascii "1"])]⟩
  body := [ascii "xy"]
  framing := .chunked [([ascii "B"], [ascii "2"])]
  method := 0
  statusCode := 0
  onBody := none

theorem trailing_whole : ∀ h ∈ trailing.fields, Incoming.Whole h := by
  intro h hh
  rcases List.mem_cons.mp hh with rfl | hh
  · exact ⟨ascii "A", by decide, rfl⟩
  · rcases List.mem_singleton.mp hh with rfl
    exact ⟨ascii "B", by decide, rfl⟩

theorem trailer_lost : (∀ h ∈ trailing.fields, Incoming.Whole h) ∧
    (trailing.fields.map fun h => h.1.flatten).Nodup ∧
    (ascii "B", ascii "2") ∈ trailing.fields.map joined ∧
    ∃ k, trailing.packet (HttpSession.client 1) = some k ∧
      k.headers.toList = [(ascii "A", ascii "1")] ∧ k.headers[ascii "B"]? = none := by
  have h : (trailing.packet (HttpSession.client 1)).map
      (fun k => (k.headers.toList, k.headers[ascii "B"]?)) =
        some ([(ascii "A", ascii "1")], none) := by decide
  obtain ⟨k, hk, hview⟩ := Option.map_eq_some_iff.mp h
  obtain ⟨hlist, hget⟩ := Prod.mk.inj hview
  exact ⟨trailing_whole, by decide, by decide, k, hk, hlist, hget⟩

def untrailed : Incoming := { trailing with framing := .chunked [] }

theorem fields_kept_without_trailer : ∃ k,
    untrailed.packet (HttpSession.client 1) = some k ∧
      k.headers[ascii "A"]? = some (ascii "1") := by
  have hwhole : ∀ h ∈ untrailed.fields, Incoming.Whole h := fun h hh =>
    trailing_whole h (List.mem_of_mem_head? (List.mem_singleton.mp hh ▸ rfl))
  obtain ⟨k, hk, hkept⟩ := fields_kept_iff (s := HttpSession.client 1) nofun hwhole (by decide)
  exact ⟨k, hk, hkept.mpr rfl _ (List.mem_singleton_self _)⟩

end Hwnet.Http
