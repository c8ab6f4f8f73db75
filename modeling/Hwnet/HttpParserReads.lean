import Hwnet.HttpParserPhases

set_option autoImplicit false

/-!
# Reads of a connection

One call of the parser for each read. What is reached from `http_parser_init` is always defined, and
apart from the cuts of the strings nothing depends on the cuts of the stream.
-/
namespace Hwnet.Http.HttpParser

open Slices (Control)

/-- The reads are given to the parser as long as each is read to its end. -/
def executeAll (k : HttpParser) : List Bytes → Executed
  | [] => ⟨k, [], 0, .next⟩
  | d :: ds =>
    let r := k.execute d
    match r.ending with
    | .next =>
      let f := executeAll r.state ds
      { f with reports := r.reports ++ f.reports, consumed := r.consumed + f.consumed }
    | .error | .exit | .fault => r

variable {k : HttpParser} {q : Phase} {data : Bytes} {reads : List Bytes}

theorem Fits.execute_eq (h : k.Fits q) (nonempty : data ≠ []) :
    k.execute data = machine.execute k data := by
  rw [execute, if_neg (by simp [h.errno]), if_neg nonempty]

theorem Fits.executeAll_eq (h : k.Fits q) (nonempty : ∀ d ∈ reads, d ≠ []) :
    k.executeAll reads = machine.feed k reads := by
  induction reads generalizing k q with
  | nil => rfl
  | cons d ds ih =>
    have hd := nonempty d List.mem_cons_self
    obtain ⟨-, q', -, hfits⟩ := speaks.execute lawful bulk h hd
    rw [executeAll, Slices.Machine.feed, h.execute_eq hd]
    rcases hr : (machine.execute k d).ending with _ | _ | _ | _
    · dsimp only
      rw [ih (hfits (Or.inl hr)) fun d' hd' => nonempty d' (List.mem_cons_of_mem _ hd')]
    · rfl
    · rfl
    · rfl

theorem Fits.execute_sound (h : k.Fits q) (nonempty : data ≠ []) :
    (k.execute data).ending ≠ .fault ∧
      ∃ q' : Phase, Phase.language.reads q (k.execute data).reports = some q' ∧
        ((k.execute data).ending = .next ∨ (k.execute data).ending = .exit →
          (k.execute data).state.Fits q') := by
  rw [h.execute_eq nonempty]
  exact speaks.execute lawful bulk h nonempty

/-- How much of a read is consumed, and what is left of a parser that failed. -/
theorem Fits.execute_consumed (h : k.Fits q) (nonempty : data ≠ []) :
    ((k.execute data).ending = .next → (k.execute data).consumed = data.length) ∧
      ((k.execute data).ending = .exit → (k.execute data).consumed ≤ data.length) ∧
      ((k.execute data).ending = .error → (k.execute data).consumed < data.length ∧
        (k.execute data).state.httpErrno ≠ .ok) := by
  rw [h.execute_eq nonempty, bulk.execute_eq]
  obtain ⟨hstate, hconsumed, hending, -⟩ := lawful.execute_single (s := k) nonempty
  have hfar := machine.trace_consumed k data
  rw [hstate, hconsumed, hending]
  refine ⟨fun hend => ?_, fun hend => ?_, fun hend => ?_⟩
  · simpa only [hend] using hfar
  · simp only [hend] at hfar
    exact hfar.2
  · simp only [hend] at hfar
    obtain ⟨k', q', ch, hfits, hcontrol, hlast⟩ := speaks.trace_error h hend
    exact ⟨hfar, hlast ▸ (sound_step hfits ch).errno hcontrol⟩

/-- No assertion fails, no string is read beyond its end, and the callbacks come in order. -/
theorem executeAll_sound (t : ParserType) (nonempty : ∀ d ∈ reads, d ≠ []) :
    ((init t).executeAll reads).ending ≠ .fault ∧
      ∃ q : Phase, Phase.language.reads .idle ((init t).executeAll reads).reports = some q ∧
        (((init t).executeAll reads).ending = .next ∨ ((init t).executeAll reads).ending = .exit →
          ((init t).executeAll reads).state.Fits q) := by
  rw [(fits_init t).executeAll_eq nonempty]
  exact speaks.feed lawful bulk (fits_init t) nonempty

theorem executeAll_sound_partial : ((init .request).executeAll [ascii "GE", ascii "T /a"]).ending ≠
      .fault ∧
    ∃ q : Phase, Phase.language.reads .idle
        ((init .request).executeAll [ascii "GE", ascii "T /a"]).reports = some q ∧
      (((init .request).executeAll [ascii "GE", ascii "T /a"]).ending = .next ∨
          ((init .request).executeAll [ascii "GE", ascii "T /a"]).ending = .exit →
        ((init .request).executeAll [ascii "GE", ascii "T /a"]).state.Fits q) :=
  executeAll_sound .request (by decide)

/-- Two cuts of one stream: the reports differ in the cuts of the strings, and where the parser
fails within a string in what of it has been reported. -/
theorem executeAll_cut (t : ParserType) {reads' : List Bytes}
    (flatten : reads.flatten = reads'.flatten) (nonempty : ∀ d ∈ reads, d ≠ [])
    (nonempty' : ∀ d ∈ reads', d ≠ []) :
    ((init t).executeAll reads).state = ((init t).executeAll reads').state ∧
      ((init t).executeAll reads).consumed = ((init t).executeAll reads').consumed ∧
      ((init t).executeAll reads).ending = ((init t).executeAll reads').ending ∧
      ∃ tail tail' : List Report,
        Slices.Machine.Lost ((init t).executeAll reads).ending tail ∧
        Slices.Machine.Lost ((init t).executeAll reads).ending tail' ∧
        Slices.join (((init t).executeAll reads).reports ++ tail) =
          Slices.join (((init t).executeAll reads').reports ++ tail') := by
  rw [(fits_init t).executeAll_eq nonempty, (fits_init t).executeAll_eq nonempty']
  exact lawful.feed_cut bulk flatten nonempty nonempty'

/-- The first cut is in the method and in the version, the second before the url. -/
theorem executeAll_cut_get : ∃ r r' : Executed,
    r = (init .request).executeAll [ascii "G", ascii "ET /a HT", ascii "TP/1.1\n\n"] ∧
    r' = (init .request).executeAll [ascii "GET ", ascii "/a HTTP/1.1\n\n"] ∧
    r.state = r'.state ∧ r.consumed = r'.consumed ∧ r.ending = r'.ending ∧
    ∃ tail tail' : List Report, Slices.Machine.Lost r.ending tail ∧
      Slices.Machine.Lost r.ending tail' ∧
      Slices.join (r.reports ++ tail) = Slices.join (r'.reports ++ tail') :=
  ⟨_, _, rfl, rfl, executeAll_cut .request (by decide) (by decide) (by decide)⟩

end Hwnet.Http.HttpParser
