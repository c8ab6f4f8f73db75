import Hwnet.HttpParserStartLine

set_option autoImplicit false

/-!
# Bodies

The end of the header block, and the body that comes behind it: one of known length, or chunks with
trailers.
-/
namespace Hwnet.Http.HttpParser

open Slices (Scans)

variable {k : HttpParser} {x : UInt8}

/-! ## The end of the header block -/

theorem scans_blankLine (start : k.lineStart) (room : k.nread + 1 < HTTP_MAX_HEADER_SIZE)
    {j : HttpParser} {out : List Report} {acts : List (Slices.Act Mark Note)}
    (hlf : { k.line with nread := k.nread + 2, state := .headersAlmostDone }.headersAlmostDone LF =
      ⟨j, acts, .next⟩) (hacts : Slices.Piece.perform LF none acts = some (none, out)) :
    Scans machine k none [CR, LF] j none (k.pending ++ out) := by
  obtain ⟨pend, hstep, hpend⟩ := step_line (c := CR) start (by omega) (by decide) (by decide)
  have h1 : Scans machine k none [CR]
      { k.line with nread := k.nread + 1, state := .headersAlmostDone } none k.pending := by
    refine .closed (?_ : machine.step k CR 1 = ⟨_, pend ++ [], .next⟩) ?_
    · exact hstep
    · rw [List.append_nil]; exact hpend
  have h2 : Scans machine { k.line with nread := k.nread + 1, state := .headersAlmostDone } none
      [LF] j none out := by
    refine .closed (?_ : machine.step _ LF 1 = ⟨j, acts, .next⟩) hacts
    exact (step_header (k := { k.line with nread := k.nread + 1, state := .headersAlmostDone }) rfl
      room LF 1).trans hlf
  exact h1.trans h2

/-! ## The bytes of a body -/

theorem toNat_pred {n : UInt64} (hn : n ≠ 0) : (n - 1).toNat = n.toNat - 1 := by
  have hpos : n.toNat ≠ 0 := fun h => hn (UInt64.toNat_inj.mp h)
  exact toNat_sub_ofNat (n := 1) (by omega)

theorem ne_max_of_lt {n m : UInt64} (h : n.toNat < m.toNat) : n ≠ ULLONG_MAX := by
  rintro rfl
  have hlt := m.toNat_lt
  have hmax : ULLONG_MAX.toNat = 2 ^ 64 - 1 := rfl
  omega

theorem readBody_one (done : HttpParser → Reaction) (hn : k.contentLength ≠ 0) :
    readBody done k 1 =
      Reaction.after (if k.contentLength - 1 = 0 then done { k with contentLength := 0 }
        else stays { k with contentLength := k.contentLength - 1 }) [.mark .body, .advance 0] := by
  have hpos : k.contentLength.toNat ≠ 0 := fun h => hn (UInt64.toNat_inj.mp h)
  have hone : min k.contentLength.toNat 1 = 1 := by omega
  have hsub : k.contentLength - UInt64.ofNat 1 = k.contentLength - 1 := rfl
  simp only [readBody, hone, hsub]
  split
  · next h => rw [h]
  · rfl

theorem scans_bodyInit {done : HttpParser → Reaction} {body l : Bytes}
    {a : Slices.Piece Mark UInt8}
    (hs : ∀ (c : UInt64) (y : UInt8), c ≠ 0 → c ≠ ULLONG_MAX →
      { k with contentLength := c }.step y 1 = readBody done { k with contentLength := c } 1)
    (hlt : body.length < k.contentLength.toNat) (hmax : k.contentLength ≠ ULLONG_MAX)
    (begun : a.Begun .body l) : ∃ (c : UInt64) (b : Slices.Piece Mark UInt8),
      c.toNat = k.contentLength.toNat - body.length ∧ b.Begun .body (l ++ body) ∧
        Scans machine k a body { k with contentLength := c } b [] := by
  induction body generalizing k l a with
  | nil => exact ⟨k.contentLength, a, rfl, by rwa [List.append_nil], .nil k a⟩
  | cons x body ih =>
    rw [List.length_cons] at hlt
    have hzero : k.contentLength ≠ 0 := by
      intro h
      rw [h] at hlt
      exact absurd hlt (Nat.not_lt_zero _)
    have hpred := toNat_pred hzero
    have hmore : k.contentLength - 1 ≠ 0 := by
      intro h
      rw [h] at hpred
      have hnone : (0 : UInt64).toNat = 0 := rfl
      omega
    have hstep : k.step x 1 =
        ⟨{ k with contentLength := k.contentLength - 1 }, [.mark .body, .advance 0], .next⟩ := by
      refine (hs k.contentLength x hzero hmax).trans ((readBody_one done hzero).trans ?_)
      rw [if_neg hmore]
      rfl
    obtain ⟨c, b, hc, hb, hscan⟩ := ih (k := { k with contentLength := k.contentLength - 1 })
      (l := l ++ [x]) (a := some (.body, l ++ [x])) hs (by dsimp only; omega)
      (ne_max_of_lt (m := k.contentLength) (by dsimp only; omega)) (Or.inr rfl)
    rw [List.append_assoc, List.singleton_append] at hb
    have hfirst : Scans machine k a [x] { k with contentLength := k.contentLength - 1 }
        (some (.body, l ++ [x])) [] :=
      .single (b := some (Mark.body, l)) hstep (by rw [begun.mark]; rfl)
    refine ⟨c, b, ?_, hb, hfirst.trans hscan⟩
    rw [hc, List.length_cons]
    dsimp only
    omega

/-- A whole body; the last byte does `acts` as well. -/
theorem scans_body {done : HttpParser → Reaction} {body : Bytes} {j : HttpParser}
    {acts : List (Slices.Act Mark Note)} {b : Slices.Piece Mark UInt8} {out : List Report}
    (hs : ∀ (c : UInt64) (y : UInt8), c ≠ 0 → c ≠ ULLONG_MAX →
      { k with contentLength := c }.step y 1 = readBody done { k with contentLength := c } 1)
    (hdone : done { k with contentLength := 0 } = ⟨j, acts, .next⟩) (hne : body ≠ [])
    (hlength : k.contentLength.toNat = body.length) (hmax : k.contentLength ≠ ULLONG_MAX)
    (hacts : ∀ (x : UInt8) (l : Bytes), l ++ [x] = body → ∃ b' : Slices.Piece Mark UInt8,
      Slices.Piece.perform x (some (.body, l)) acts = some (b', out) ∧ b'.grow x = b) :
    Scans machine k none body j b out := by
  obtain ⟨l, x, rfl⟩ := (List.eq_nil_or_concat' body).resolve_left hne
  rw [List.length_append, List.length_singleton] at hlength
  obtain ⟨c, a, hc, ha, hinit⟩ : ∃ (c : UInt64) (a : Slices.Piece Mark UInt8),
      c.toNat = k.contentLength.toNat - l.length ∧ a.Begun .body ([] ++ l) ∧
        Scans machine k none l { k with contentLength := c } a [] :=
    scans_bodyInit hs (by omega) hmax (Or.inl ⟨rfl, rfl⟩)
  rw [List.nil_append] at ha
  have hone : c = 1 := by
    apply UInt64.toNat_inj.mp
    rw [hc, hlength]
    show l.length + 1 - l.length = 1
    omega
  subst hone
  obtain ⟨b', hperform, hgrow⟩ := hacts x l rfl
  have hstep : { k with contentLength := 1 }.step x 1 =
      ⟨j, [.mark .body, .advance 0] ++ acts, .next⟩ := by
    have hone : (1 : UInt64) ≠ 0 := by decide
    refine (hs 1 x hone (by decide)).trans ((readBody_one done hone).trans ?_)
    rw [if_pos (show (1 : UInt64) - 1 = 0 by decide)]
    show Reaction.after (done { k with contentLength := 0 }) _ = _
    rw [hdone]
    rfl
  have hlast : Scans machine { k with contentLength := 1 } a [x] j b out := by
    rw [← hgrow]
    refine .single hstep ?_
    rw [List.cons_append, ha.mark]
    simp [Slices.Piece.perform, Slices.Piece.act, hperform]
  exact hinit.trans hlast

theorem scans_identity {body : Bytes} (hk : k.state = .bodyIdentity) (hne : body ≠ [])
    (hlength : k.contentLength.toNat = body.length) (hmax : k.contentLength ≠ ULLONG_MAX) :
    Scans machine k none body
      { k with contentLength := 0, state := newMessage { k with contentLength := 0 } } none
      [.data .body body, .note .messageComplete] := by
  have hs (c : UInt64) (y : UInt8) (hzero : c ≠ 0) (hmax : c ≠ ULLONG_MAX) :
      { k with contentLength := c }.step y 1 =
        readBody (fun j => { j with state := .messageDone }.messageDone.after [.flushLast .body])
          { k with contentLength := c } 1 := by
    rw [step_body y (by dsimp only; rw [hk]; rfl)]
    simp only [switch, hk]
    rw [bodyIdentity_eq, if_neg (by simp [hzero, hmax])]
  refine scans_body hs rfl hne hlength hmax fun x l hl => ⟨none, ?_, rfl⟩
  rw [← hl]
  simp only [List.singleton_append, Slices.Piece.perform, Slices.Piece.act, if_true]
  rfl

/-! ## Chunks -/

def sizeStep (n : UInt64) (ch : UInt8) : Option UInt64 :=
  (unhex ch).bind fun v =>
    if (ULLONG_MAX - 16) / 16 < n then none else some (n * 16 + v.toUInt64)

def readSize : Bytes → Option UInt64
  | [] => none
  | x :: s => (unhex x).bind fun v => s.foldlM sizeStep v.toUInt64

structure Chunk where
  size : Bytes
  parameters : Bytes
  data : Bytes
  deriving DecidableEq, Repr

def Parameters (b : Bytes) : Prop := (∀ c ∈ b.head?, c = 0x3b ∨ c = SP) ∧ CR ∉ b

instance (b : Bytes) : Decidable (Parameters b) :=
  decidable_of_iff (b.head?.all (fun c => c == 0x3b || c == SP) = true ∧ CR ∉ b) <|
    and_congr_left fun _ => by simp [Option.all_eq_true]

namespace Chunk

def head (c : Chunk) : Bytes := c.size ++ (c.parameters ++ [CR, LF])

def text (c : Chunk) : Bytes := c.head ++ (c.data ++ [CR, LF])

structure Legal (c : Chunk) : Prop where
  size : (readSize c.size).map UInt64.toNat = some c.data.length
  parameters : Parameters c.parameters
  data : c.data ≠ []
  room : c.head.length ≤ HTTP_MAX_HEADER_SIZE

instance (c : Chunk) : Decidable c.Legal :=
  decidable_of_iff
    ((readSize c.size).map UInt64.toNat = some c.data.length ∧ Parameters c.parameters ∧
      c.data ≠ [] ∧ c.head.length ≤ HTTP_MAX_HEADER_SIZE)
    ⟨fun ⟨hsize, hparameters, hdata, hroom⟩ => ⟨hsize, hparameters, hdata, hroom⟩,
      fun h => ⟨h.size, h.parameters, h.data, h.room⟩⟩

end Chunk

variable {n : UInt64}

theorem scans_size {s : Bytes} (hk : k.state = .chunkSize) (hchunked : k.flags.chunked = true)
    (room : k.nread + s.length < HTTP_MAX_HEADER_SIZE)
    (hn : s.foldlM sizeStep k.contentLength = some n) :
    Scans machine k none s { k with nread := k.nread + s.length, contentLength := n } none [] := by
  induction s generalizing k with
  | nil =>
    obtain rfl := Option.some.inj hn
    exact .nil k none
  | cons x s ih =>
    have hlength : k.nread + (s.length + 1) < HTTP_MAX_HEADER_SIZE := room
    rw [List.foldlM_cons] at hn
    obtain ⟨n', hfirst, hrest⟩ := Option.bind_eq_some_iff.mp hn
    obtain ⟨v, hv, hn'⟩ := Option.bind_eq_some_iff.mp hfirst
    have hcr : x ≠ CR := fun h => by rw [h] at hv; cases hv
    have hstep : k.step x 1 =
        ⟨{ k with nread := k.nread + 1, contentLength := n' }, [], .next⟩ := by
      rw [step_header (by rw [hk]; rfl) (by omega)]
      simp only [switch, hk, chunkSize, hchunked, Bool.not_true, Bool.false_eq_true, if_false,
        if_neg hcr, hv]
      split at hn'
      · cases hn'
      · next hfit =>
        obtain rfl := Option.some.inj hn'
        rw [if_neg hfit, ← hk]
        rfl
    have hlast := ih (k := { k with nread := k.nread + 1, contentLength := n' }) hk hchunked
      (by dsimp only; omega) hrest
    rw [List.length_cons, ← Nat.add_assoc, Nat.add_right_comm]
    exact .quiet hstep hlast

theorem scans_parametersRest {b : Bytes} (hk : k.state = .chunkParameters)
    (hchunked : k.flags.chunked = true) (room : k.nread + b.length < HTTP_MAX_HEADER_SIZE)
    (hb : CR ∉ b) : Scans machine k none b { k with nread := k.nread + b.length } none [] := by
  induction b generalizing k with
  | nil => exact .nil k none
  | cons x b ih =>
    have hlength : k.nread + (b.length + 1) < HTTP_MAX_HEADER_SIZE := room
    rw [List.mem_cons, not_or] at hb
    have hstep : k.step x 1 = ⟨{ k with nread := k.nread + 1 }, [], .next⟩ := by
      rw [step_header (by rw [hk]; rfl) (by omega)]
      simp only [switch, hk, chunkParameters, hchunked, Bool.not_true, Bool.false_eq_true, if_false,
        if_neg (Ne.symm hb.1)]
      rw [← hk]
      rfl
    have hlast := ih (k := { k with nread := k.nread + 1 }) hk hchunked (by dsimp only; omega) hb.2
    rw [List.length_cons, ← Nat.add_assoc, Nat.add_right_comm]
    exact .quiet hstep hlast

theorem scans_parameters {b : Bytes} (hk : k.state = .chunkSize)
    (hchunked : k.flags.chunked = true) (room : k.nread + b.length < HTTP_MAX_HEADER_SIZE)
    (hb : Parameters b) :
    Scans machine k none (b ++ [CR])
      { k with nread := k.nread + b.length + 1, state := .chunkSizeAlmostDone } none [] := by
  cases b with
  | nil =>
    have hcr : k.step CR 1 =
        ⟨{ k with nread := k.nread + 1, state := .chunkSizeAlmostDone }, [], .next⟩ := by
      rw [step_header (by rw [hk]; rfl) room]
      simp only [switch, hk, chunkSize, hchunked, Bool.not_true, Bool.false_eq_true, if_false,
        if_true]
      rfl
    exact .quiet hcr (.nil _ none)
  | cons x b =>
    rw [List.length_cons] at room
    obtain ⟨hfirst, hnot⟩ := hb
    rw [List.mem_cons, not_or] at hnot
    have hx : x = 0x3b ∨ x = SP := hfirst x rfl
    have hnone : unhex x = none := by rcases hx with rfl | rfl <;> decide
    have hstep : k.step x 1 =
        ⟨{ k with nread := k.nread + 1, state := .chunkParameters }, [], .next⟩ := by
      rw [step_header (by rw [hk]; rfl) (by omega)]
      simp only [switch, hk, chunkSize, hchunked, Bool.not_true, Bool.false_eq_true, if_false,
        if_neg (Ne.symm hnot.1), hnone, if_pos hx]
      rfl
    have hrest := scans_parametersRest (k := { k with
        nread := k.nread + 1, state := .chunkParameters }) rfl hchunked (by dsimp only; omega)
      hnot.2
    have hcr : { k with
        nread := k.nread + 1 + b.length, state := .chunkParameters }.step CR 1 =
        ⟨{ k with nread := k.nread + 1 + b.length + 1, state := .chunkSizeAlmostDone }, [],
          .next⟩ := by
      rw [step_header rfl (by dsimp only; omega)]
      simp only [switch, chunkParameters, hchunked, Bool.not_true, Bool.false_eq_true, if_false,
        if_true]
      rfl
    rw [List.length_cons, show k.nread + (b.length + 1) + 1 = k.nread + 1 + b.length + 1 from by
      omega]
    exact .quiet hstep (hrest.trans (.quiet hcr (.nil _ none)))

theorem scans_chunkHead {s b : Bytes} (hk : k.state = .chunkSizeStart) (hnread : k.nread = 0)
    (hchunked : k.flags.chunked = true) (hn : readSize s = some n) (hb : Parameters b)
    (room : (s ++ (b ++ [CR, LF])).length ≤ HTTP_MAX_HEADER_SIZE) :
    Scans machine k none (s ++ (b ++ [CR, LF]))
      (if n = 0 then
        { k with
          contentLength := n
          flags := { k.flags with trailing := true }
          state := .headerFieldStart }
      else { k with contentLength := n, state := .chunkData }) none [] := by
  rcases s with _ | ⟨x, s⟩
  · cases hn
  · simp only [List.length_append, List.length_cons, List.length_nil] at room
    obtain ⟨v, hv, hfold⟩ := Option.bind_eq_some_iff.mp hn
    have hstep : k.step x 1 =
        ⟨{ k with nread := 1, contentLength := v.toUInt64, state := .chunkSize }, [], .next⟩ := by
      rw [step_header (by rw [hk]; rfl) (by omega)]
      simp only [switch, hk, hnread, chunkSizeStart, hchunked, hv]
      rfl
    have hsize := scans_size (k := { k with
        nread := 1, contentLength := v.toUInt64, state := .chunkSize }) rfl hchunked
      (by dsimp only; omega) hfold
    have hparameters := scans_parameters (k := { k with
        nread := 1 + s.length, contentLength := n, state := .chunkSize }) rfl hchunked
      (by dsimp only; omega) hb
    have hlf : { k with
        nread := 1 + s.length + b.length + 1
        contentLength := n
        state := .chunkSizeAlmostDone }.step LF 1 =
        ⟨if n = 0 then
            { k with
              contentLength := n
              flags := { k.flags with trailing := true }
              state := .headerFieldStart }
          else { k with contentLength := n, state := .chunkData }, [], .next⟩ := by
      rw [step_header rfl (by dsimp only; omega)]
      simp only [switch, chunkSizeAlmostDone, hchunked, Bool.not_true, Bool.false_eq_true, if_false,
        ne_eq, not_true]
      rw [← hnread]
      split <;> rfl
    have hall : Scans machine k none (x :: (s ++ ((b ++ [CR]) ++ [LF]))) _ none [] :=
      .quiet hstep (hsize.trans (hparameters.trans (.quiet hlf (.nil _ none))))
    have htext : x :: (s ++ ((b ++ [CR]) ++ [LF])) = x :: s ++ (b ++ [CR, LF]) := by simp
    rwa [htext] at hall

theorem scans_chunkData {data : Bytes} (hk : k.state = .chunkData)
    (hchunked : k.flags.chunked = true) (hne : data ≠ [])
    (hlength : k.contentLength.toNat = data.length) (hmax : k.contentLength ≠ ULLONG_MAX) :
    Scans machine k none data { k with contentLength := 0, state := .chunkDataAlmostDone }
      (some (.body, data)) [] := by
  have hs (c : UInt64) (y : UInt8) (hzero : c ≠ 0) (hmax : c ≠ ULLONG_MAX) :
      { k with contentLength := c }.step y 1 =
        readBody (fun j => j.goes .chunkDataAlmostDone []) { k with contentLength := c } 1 := by
    rw [step_body y (by dsimp only; rw [hk]; rfl)]
    simp only [switch, hk]
    rw [chunkData_eq, if_neg (by simp [hchunked, hzero, hmax])]
  refine scans_body hs rfl hne hlength hmax fun x l hl => ⟨some (.body, l), rfl, ?_⟩
  rw [← hl]
  rfl

theorem readSize_lt {s : Bytes} (hn : readSize s = some n) : n ≠ ULLONG_MAX := by
  have hstep {m m' : UInt64} {c : UInt8} (h : sizeStep m c = some m') : m' ≠ ULLONG_MAX := by
    obtain ⟨v, hv, hm⟩ := Option.bind_eq_some_iff.mp h
    split at hm
    · cases hm
    · next hfit =>
      obtain rfl := Option.some.inj hm
      have hdigit := chunk_digit hfit (unhex_lt hv)
      have hle : m.toNat ≤ (2 ^ 64 - 1 - 16) / 16 := by
        rw [UInt64.not_lt, UInt64.le_iff_toNat_le] at hfit
        exact hfit
      have hlt := unhex_lt hv
      intro hmax
      rw [hmax] at hdigit
      have : ULLONG_MAX.toNat = 2 ^ 64 - 1 := rfl
      omega
  have hfold {s : Bytes} {m m' : UInt64} (hm : m ≠ ULLONG_MAX)
      (h : s.foldlM sizeStep m = some m') : m' ≠ ULLONG_MAX := by
    induction s generalizing m with
    | nil => exact Option.some.inj h ▸ hm
    | cons c s ih =>
      rw [List.foldlM_cons] at h
      obtain ⟨m'', hfirst, hrest⟩ := Option.bind_eq_some_iff.mp h
      exact ih (hstep hfirst) hrest
  cases s with
  | nil => cases hn
  | cons x s =>
    obtain ⟨v, hv, hrest⟩ := Option.bind_eq_some_iff.mp hn
    refine hfold (fun hmax => ?_) hrest
    have hlt := unhex_lt hv
    have hnat := congrArg UInt64.toNat hmax
    rw [UInt8.toNat_toUInt64] at hnat
    have : ULLONG_MAX.toNat = 2 ^ 64 - 1 := rfl
    omega

/-- A chunk, after which the header states are read as before it. -/
theorem scans_chunk {c : Chunk} (legal : c.Legal) (hk : k.state = .chunkSizeStart)
    (hnread : k.nread = 0) (hchunked : k.flags.chunked = true) :
    Scans machine k none c.text { k with contentLength := 0 } none [.data .body c.data] := by
  obtain ⟨n, hn, hlength⟩ := Option.map_eq_some_iff.mp legal.size
  have hzero : n ≠ 0 := by
    rintro rfl
    exact legal.data (List.length_eq_zero_iff.mp hlength.symm)
  have hhead := scans_chunkHead hk hnread hchunked hn legal.parameters legal.room
  rw [if_neg hzero] at hhead
  have hdata := scans_chunkData (k := { k with contentLength := n, state := .chunkData }) rfl
    hchunked legal.data hlength (readSize_lt hn)
  have hcr : { k with contentLength := 0, state := .chunkDataAlmostDone }.step CR 1 =
      ⟨{ k with contentLength := 0, state := .chunkDataDone }, [.flush .body], .next⟩ := by
    rw [step_body CR rfl]
    simp only [switch, chunkDataAlmostDone, hchunked]
    rfl
  have hlf : { k with contentLength := 0, state := .chunkDataDone }.step LF 1 =
      ⟨{ k with contentLength := 0 }, [], .next⟩ := by
    rw [step_body LF rfl]
    simp only [switch, chunkDataDone, hchunked]
    rw [← hk, ← hnread]
    rfl
  have hflush : Scans machine { k with contentLength := 0, state := .chunkDataAlmostDone }
      (some (.body, c.data)) [CR] { k with contentLength := 0, state := .chunkDataDone } none
      [.data .body c.data] :=
    .closed hcr (by simp [Slices.Piece.perform, Slices.Piece.act])
  have hall := hhead.trans (hdata.trans (hflush.trans (.quiet hlf (.nil _ none))))
  exact hall

theorem scans_chunks {cs : List Chunk} (legal : ∀ c ∈ cs, c.Legal)
    (hk : k.state = .chunkSizeStart) (hnread : k.nread = 0) (hchunked : k.flags.chunked = true) :
    ∃ n : UInt64, Scans machine k none (cs.flatMap Chunk.text) { k with contentLength := n } none
      (cs.map fun c => .data .body c.data) := by
  induction cs generalizing k with
  | nil => exact ⟨k.contentLength, .nil k none⟩
  | cons c cs ih =>
    obtain ⟨hc, hrest⟩ := List.forall_mem_cons.mp legal
    obtain ⟨n, hscan⟩ := ih (k := { k with contentLength := 0 }) hrest hk hnread hchunked
    exact ⟨n, (scans_chunk hc hk hnread hchunked).trans hscan⟩

end Hwnet.Http.HttpParser
