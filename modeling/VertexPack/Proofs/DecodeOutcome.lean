import VertexPack.Proofs.Delimiting
import VertexPack.Proofs.DeltaGuards
import VertexPack.Proofs.PlaneGuards

/-! How decoding over a destination ends, for every input: what is refused before the stream is
looked at, how a stream is refused, and that no access ever leaves its range. -/
namespace VertexPack
open Access
variable {α : Type} {destination stream : List UInt8} {count n : Nat}

structure Fits (destination : List UInt8) (count n : Nat) : Prop where
  validSize : ValidSize n
  lt_limit : count * n < Capacity.limit
  le_length : count * n ≤ destination.length

structure Checked (destination : List UInt8) (count n : Nat) (result : Except StreamError α) :
    Prop where
  invalidSize : result = .error (.invalidVertexSize n) ↔ ¬ ValidSize n
  beyondLimit : result = .error (.sourceTooSmall Capacity.largest 0) ↔
    ValidSize n ∧ Capacity.limit ≤ count * n
  outputTooSmall : result = .error (.outputTooSmall (count * n) destination.length) ↔
    ValidSize n ∧ count * n < Capacity.limit ∧ destination.length < count * n

/-- The three errors of the checks before the stream, or, behind them, what `P` allows. -/
inductive IntoEnding (destination : List UInt8) (count n : Nat)
    (P : Except StreamError α → Prop) : Except StreamError α → Prop
  | invalidSize (h : ¬ ValidSize n) :
    IntoEnding destination count n P (.error (.invalidVertexSize n))
  | beyondLimit (hsize : ValidSize n) (h : Capacity.limit ≤ count * n) :
    IntoEnding destination count n P (.error (.sourceTooSmall Capacity.largest 0))
  | outputTooSmall (hsize : ValidSize n) (hlim : count * n < Capacity.limit)
    (h : destination.length < count * n) :
    IntoEnding destination count n P (.error (.outputTooSmall (count * n) destination.length))
  | checked (hfits : Fits destination count n) {result : Except StreamError α} (h : P result) :
    IntoEnding destination count n P result

section Checks
variable {P : Except StreamError α → Prop} {result : Except StreamError α}

theorem decodeInto_ending {β : VertexSize → Type} {read : (size : VertexSize) → Decoding (β size)}
    {close : (size : VertexSize) → β size → List UInt8 → α}
    (h : ∀ size : VertexSize, size.val = n →
      P (VertexBuffer.decodeBefore read close (destination.drop (count * n)) size stream)) :
    IntoEnding destination count n P
      (VertexBuffer.decodeInto read close destination count n stream) := by
  by_cases hsize : ValidSize n
  · obtain ⟨size, rfl⟩ := hsize.exists_size
    by_cases hlim : count * size.val < Capacity.limit
    · by_cases hle : count * size.val ≤ destination.length
      · rw [VertexBuffer.decodeInto_of_le hlim hle]
        exact .checked ⟨hsize, hlim, hle⟩ (h size rfl)
      · rw [VertexBuffer.decodeInto_of_lt hlim (Nat.lt_of_not_le hle)]
        exact .outputTooSmall hsize hlim (Nat.lt_of_not_le hle)
    · rw [VertexBuffer.decodeInto_of_limit_le (Nat.le_of_not_lt hlim)]
      exact .beyondLimit hsize (Nat.le_of_not_lt hlim)
  · rw [VertexBuffer.decodeInto_of_not_valid hsize]
    exact .invalidSize hsize

namespace IntoEnding

theorem of_fits (h : IntoEnding destination count n P result) (hfits : Fits destination count n) :
    P result := by
  cases h with
  | invalidSize hsize => exact absurd hfits.validSize hsize
  | beyondLimit _ hlim => exact absurd hfits.lt_limit (Nat.not_lt.2 hlim)
  | outputTooSmall _ _ hlt => exact absurd hfits.le_length (Nat.not_le.2 hlt)
  | checked _ h => exact h

theorem frame_iff (h : IntoEnding destination count n P result) {cause : FrameError} {Q : Prop}
    (hP : P result → (result = .error (.frame cause) ↔ Q)) :
    result = .error (.frame cause) ↔ Fits destination count n ∧ Q := by
  constructor
  · rintro rfl
    cases h with
    | checked hfits h => exact ⟨hfits, (hP h).1 rfl⟩
  · rintro ⟨hfits, hQ⟩
    exact (hP (h.of_fits hfits)).2 hQ

theorem error_cases {e : StreamError} (h : IntoEnding destination count n P (.error e)) :
    e = .invalidVertexSize n ∨ e = .sourceTooSmall Capacity.largest 0 ∨
      e = .outputTooSmall (count * n) destination.length ∨ P (.error e) := by
  cases h with
  | invalidSize _ => exact .inl rfl
  | beyondLimit _ _ => exact .inr (.inl rfl)
  | outputTooSmall _ _ _ => exact .inr (.inr (.inl rfl))
  | checked _ h => exact .inr (.inr (.inr h))

end IntoEnding

/-- No step behind the checks has one of their errors. -/
structure NeverChecks (n : Nat) (P : Except StreamError α → Prop) : Prop where
  size : ¬ P (.error (.invalidVertexSize n))
  source : ∀ needed available, ¬ P (.error (.sourceTooSmall needed available))
  output : ∀ needed available, ¬ P (.error (.outputTooSmall needed available))

theorem IntoEnding.checked_iff (h : IntoEnding destination count n P result)
    (hP : NeverChecks n P) : Checked destination count n result := by
  cases h with
  | invalidSize h => constructor <;> simp [h]
  | beyondLimit hvalid h => constructor <;> simp [hvalid, h]
  | outputTooSmall hvalid hlim h => constructor <;> simp [hvalid, hlim, h]
  | checked hfits h =>
    have hlim := hfits.lt_limit
    have hle := hfits.le_length
    refine ⟨⟨?_, ?_⟩, ⟨?_, ?_⟩, ⟨?_, ?_⟩⟩
    · rintro rfl
      exact absurd h hP.size
    · intro hnot
      exact absurd hfits.validSize hnot
    · rintro rfl
      exact absurd h (hP.source _ _)
    · rintro ⟨_, hlimit⟩
      omega
    · rintro rfl
      exact absurd h (hP.output _ _)
    · rintro ⟨_, _, hlt⟩
      omega

end Checks

namespace FormatByte
variable {r : Reader} {f : UInt8} {bs : List UInt8}

theorem read_of_parse_ok {format : FormatByte} (h : r.rest = f :: bs) (hf : parse f = .ok format) :
    read r = .ok format (r.skip 1) := by
  rw [read, bind_of_ok (adaptExcept_of_ok (Reader.byte_of_cons h)), hf]
  rfl

theorem read_of_parse_error {e : FrameError} (h : r.rest = f :: bs) (hf : parse f = .error e) :
    read r = .error e (r.skip 1) := by
  rw [read, bind_of_ok (adaptExcept_of_ok (Reader.byte_of_cons h)), hf]
  rfl

end FormatByte

namespace DeltaStream

/-- A stream that is long enough for its first byte and the end of its tail, and that begins
with a byte of a version that can be decoded. -/
structure Readable (n : Nat) (stream : List UInt8) : Prop where
  le_length : 1 + n ≤ stream.length
  tag : ∀ f, stream.head? = some f → f &&& 0xF0 = FormatByte.tag
  version : ∀ f, stream.head? = some f → f &&& 0x0F ≤ FormatByte.maxDecodeVersion

inductive ReadEnding (n : Nat) (stream : List UInt8) : Except StreamError α → Prop
  | short (h : stream.length < 1 + n) :
    ReadEnding n stream (.error (.truncated (1 + n) stream.length))
  | invalidTag {f : UInt8} (hlen : 1 + n ≤ stream.length) (hhead : stream.head? = some f)
    (h : f &&& 0xF0 ≠ FormatByte.tag) : ReadEnding n stream (.error (.frame (.invalidTag f)))
  | unsupportedVersion {f : UInt8} (hlen : 1 + n ≤ stream.length) (hhead : stream.head? = some f)
    (htag : f &&& 0xF0 = FormatByte.tag) (h : FormatByte.maxDecodeVersion < f &&& 0x0F) :
    ReadEnding n stream (.error (.frame (.unsupportedVersion (f &&& 0x0F))))
  | truncated (hread : Readable n stream) {e : StreamError} (h : e.IsTruncated) :
    ReadEnding n stream (.error e)
  | trailingData (hread : Readable n stream) (found : Nat) (h : found ≠ Layout.tailSize n) :
    ReadEnding n stream (.error (.trailingData (Layout.tailSize n) found))
  | done (hread : Readable n stream) (a : α) : ReadEnding n stream (.ok a)

theorem readBlocks_error {size : VertexSize} {p : Record size.val} {r r' : Reader}
    {e : StreamError} (h : readBlocks size count p r = .error e r') :
    e.IsTruncated ∨ ∃ found, found ≠ Layout.tailSize size.val ∧
      e = .trailingData (Layout.tailSize size.val) found := by
  cases hrun : decodeBlocks (ceilDiv count (Layout.blockLength size.val)) count p r with
  | error e r₁ =>
    rw [readBlocks_of_decodeBlocks_error hrun] at h
    cases h
    exact .inl (decodeBlocks_failsOnly _ _ _ _ _ _ hrun)
  | ok records r₁ =>
    rw [readBlocks_of_decodeBlocks_ok hrun] at h
    by_cases hleft : r₁.remaining = Layout.tailSize size.val
    · rw [if_pos hleft] at h
      cases h
    · rw [if_neg hleft] at h
      cases h
      exact .inr ⟨_, hleft, rfl⟩

theorem read_of_parse_error (count : Nat) {size : VertexSize} {f : UInt8} {body : List UInt8}
    {e : FrameError} (hlen : 1 + size.val ≤ (f :: body).length)
    (h : FormatByte.parse f = .error e) :
    ∃ r, read size count (.ofBytes (f :: body)) = .error (.ofFrame e) r := by
  have hread : FormatByte.read (.ofBytes (f :: body)) =
      .error e ((Reader.ofBytes (f :: body)).skip 1) := FormatByte.read_of_parse_error rfl h
  refine ⟨(Reader.ofBytes (f :: body)).skip 1, ?_⟩
  rw [read_of_le (r := .ofBytes (f :: body)) hlen, bind_of_error (adaptExcept_of_error hread)]

theorem error_of_parse_ok {size : VertexSize} {f : UInt8} {body : List UInt8} {format : FormatByte}
    {e : StreamError} {r : Reader} (hlen : 1 + size.val ≤ (f :: body).length)
    (h : FormatByte.parse f = .ok format)
    (he : read size count (.ofBytes (f :: body)) = .error e r) :
    e.IsTruncated ∨ ∃ found, found ≠ Layout.tailSize size.val ∧
      e = .trailingData (Layout.tailSize size.val) found := by
  have hread : FormatByte.read (.ofBytes (f :: body)) =
      .ok format ((Reader.ofBytes (f :: body)).skip 1) := FormatByte.read_of_parse_ok rfl h
  rw [read_of_le (r := .ofBytes (f :: body)) hlen, bind_of_ok (adaptExcept_of_ok hread)] at he
  cases hblocks : readBlocks size count (seed size (f :: body))
      ((Reader.ofBytes (f :: body)).skip 1) with
  | ok records r' =>
    have hrun := (bind_of_ok (f := fun records => pure (format, records)) hblocks).symm.trans he
    cases hrun
  | error e' r' =>
    have hrun := (bind_of_error (f := fun records => pure (format, records)) hblocks).symm.trans he
    cases hrun
    exact readBlocks_error hblocks

theorem decodeBefore_ending
    {close : (size : VertexSize) → FormatByte × List (Record size.val) → List UInt8 → α}
    {rest : List UInt8} {size : VertexSize} (hsize : size.val = n) :
    ReadEnding n stream
      (VertexBuffer.decodeBefore (fun size => read size count) close rest size stream) := by
  subst hsize
  rw [VertexBuffer.decodeBefore]
  by_cases hshort : stream.length < 1 + size.val
  · rw [read_of_lt (r := .ofBytes stream) hshort]
    exact .short hshort
  · have hlen := Nat.le_of_not_lt hshort
    cases stream with
    | nil =>
      rw [List.length_nil] at hlen
      omega
    | cons f body =>
      by_cases htag : f &&& 0xF0 = FormatByte.tag
      · by_cases hversion : FormatByte.maxDecodeVersion < f &&& 0x0F
        · have hparse : FormatByte.parse f = .error (.unsupportedVersion (f &&& 0x0F)) := by
            rw [FormatByte.parse, if_neg (not_not.2 htag), if_pos hversion]
          obtain ⟨r, hread⟩ := read_of_parse_error count hlen hparse
          rw [hread]
          exact .unsupportedVersion hlen rfl htag hversion
        · have hparse : FormatByte.parse f = .ok ⟨f &&& 0x0F, UInt8.and_le_right⟩ := by
            rw [FormatByte.parse, if_neg (not_not.2 htag), if_neg hversion]
          have hread : Readable size.val (f :: body) := by
            refine ⟨hlen, ?_, ?_⟩
            · rintro _ ⟨⟩
              exact htag
            · rintro _ ⟨⟩
              exact UInt8.not_lt.1 hversion
          cases hrun : read size count (.ofBytes (f :: body)) with
          | ok found r => exact .done hread _
          | error e r =>
            rcases error_of_parse_ok hlen hparse hrun with htrunc | ⟨found, hne, rfl⟩
            · exact .truncated hread htrunc
            · exact .trailingData hread found hne
      · have hparse : FormatByte.parse f = .error (.invalidTag f) := by
          rw [FormatByte.parse, if_pos htag]
        obtain ⟨r, hread⟩ := read_of_parse_error count hlen hparse
        rw [hread]
        exact .invalidTag hlen rfl htag

theorem readEnding_neverChecks (n : Nat) (stream : List UInt8) :
    NeverChecks n (ReadEnding n stream : Except StreamError α → Prop) where
  size := by
    rintro (_ | _ | _ | ⟨_, _, _, ⟨⟩, _⟩)
  source := by
    rintro needed available (_ | _ | _ | ⟨_, _, _, ⟨⟩, _⟩)
  output := by
    rintro needed available (_ | _ | _ | ⟨_, _, _, ⟨⟩, _⟩)

namespace ReadEnding
variable {result : Except StreamError α} {f : UInt8}

theorem eq_truncated (h : ReadEnding n stream result) (hlt : stream.length < 1 + n) :
    result = .error (.truncated (1 + n) stream.length) := by
  cases h with
  | short _ => rfl
  | invalidTag hlen _ _ => omega
  | unsupportedVersion hlen _ _ _ => omega
  | truncated hread _ => exact absurd hread.le_length (Nat.not_le.2 hlt)
  | trailingData hread _ _ => exact absurd hread.le_length (Nat.not_le.2 hlt)
  | done hread _ => exact absurd hread.le_length (Nat.not_le.2 hlt)

theorem invalidTag_iff (h : ReadEnding n stream result) (hhead : stream.head? = some f) :
    result = .error (.frame (.invalidTag f)) ↔
      1 + n ≤ stream.length ∧ f &&& 0xF0 ≠ FormatByte.tag := by
  cases h with
  | short hlt => simp [hlt]
  | invalidTag hlen hhead' htag =>
    cases hhead.symm.trans hhead'
    simp [hlen, htag]
  | unsupportedVersion _ hhead' htag _ =>
    cases hhead.symm.trans hhead'
    simp [htag]
  | truncated hread herror =>
    obtain ⟨_, _, rfl, _⟩ := herror
    simp [hread.tag f hhead]
  | trailingData hread _ _ => simp [hread.tag f hhead]
  | done hread _ => simp [hread.tag f hhead]

theorem unsupportedVersion_iff (h : ReadEnding n stream result) (hhead : stream.head? = some f) :
    result = .error (.frame (.unsupportedVersion (f &&& 0x0F))) ↔
      1 + n ≤ stream.length ∧ f &&& 0xF0 = FormatByte.tag ∧
        FormatByte.maxDecodeVersion < f &&& 0x0F := by
  cases h with
  | short hlt => simp [hlt]
  | invalidTag _ hhead' htag =>
    cases hhead.symm.trans hhead'
    simp [htag]
  | unsupportedVersion hlen hhead' htag hversion =>
    cases hhead.symm.trans hhead'
    simp [hlen, htag, hversion]
  | truncated hread herror =>
    obtain ⟨_, _, rfl, _⟩ := herror
    simp [UInt8.not_lt.2 (hread.version f hhead)]
  | trailingData hread _ _ => simp [UInt8.not_lt.2 (hread.version f hhead)]
  | done hread _ => simp [UInt8.not_lt.2 (hread.version f hhead)]

theorem error_cases {e : StreamError} (h : ReadEnding n stream (.error e : Except _ α)) :
    (∃ f, stream.head? = some f ∧
      (e = .frame (.invalidTag f) ∨ e = .frame (.unsupportedVersion (f &&& 0x0F)))) ∨
      e.IsTruncated ∨
      ∃ found, found ≠ Layout.tailSize n ∧ e = .trailingData (Layout.tailSize n) found := by
  cases h with
  | short hlt => exact .inr (.inl ⟨_, _, rfl, hlt⟩)
  | invalidTag _ hhead _ => exact .inl ⟨_, hhead, .inl rfl⟩
  | unsupportedVersion _ hhead _ _ => exact .inl ⟨_, hhead, .inr rfl⟩
  | truncated _ hshort => exact .inr (.inl hshort)
  | trailingData _ found hne => exact .inr (.inr ⟨found, hne, rfl⟩)

end ReadEnding
end DeltaStream

namespace PlaneStream

inductive ReadEnding : Except StreamError α → Prop
  | truncated (available : Nat) (h : available < 4) : ReadEnding (.error (.truncated 4 available))
  | trailingData (found : Nat) (h : 0 < found) : ReadEnding (.error (.trailingData 0 found))
  | done (a : α) : ReadEnding (.ok a)

theorem decodeBefore_ending
    {close : (size : VertexSize) → List (Record size.val) → List UInt8 → α}
    (rest : List UInt8) (size : VertexSize) :
    ReadEnding
      (VertexBuffer.decodeBefore (fun size => read size count) close rest size stream) := by
  rw [VertexBuffer.decodeBefore]
  cases hrun : decodeColumns size count (.ofBytes stream) with
  | error e r =>
    obtain ⟨available, rfl, hlt⟩ := decodeColumns_failsOnly size count _ _ _ hrun
    rw [read_of_decodeColumns_error hrun]
    exact .truncated available hlt
  | ok records r =>
    rw [read_of_decodeColumns_ok hrun]
    by_cases hrest : r.rest = []
    · rw [if_pos hrest]
      exact .done _
    · rw [if_neg hrest]
      exact .trailingData _ (List.length_pos_iff.2 hrest)

theorem readEnding_neverChecks (n : Nat) :
    NeverChecks n (ReadEnding : Except StreamError α → Prop) where
  size := nofun
  source := nofun
  output := nofun

theorem ReadEnding.error_cases {e : StreamError} (h : ReadEnding (.error e : Except _ α)) :
    (∃ available, available < 4 ∧ e = .truncated 4 available) ∨
      ∃ found, 0 < found ∧ e = .trailingData 0 found := by
  cases h with
  | truncated available hlt => exact .inl ⟨available, hlt, rfl⟩
  | trailingData found hpos => exact .inr ⟨found, hpos, rfl⟩

end PlaneStream

namespace Guarded

def overFront (step : VertexSize → List UInt8 → Guarded StreamError (List UInt8))
    (destination : List UInt8) (count : Nat) (size : VertexSize) :
    Guarded StreamError (List UInt8) := do
  let needed ← ofExcept (VertexBuffer.byteLength count size.val)
  if destination.length < needed then fail (.outputTooSmall needed destination.length)
  else
    let front ← access (slice destination 0 needed)
    let found ← step size front
    let rest ← access (slice destination needed destination.length)
    pure (found ++ rest)

def decodeInto (step : VertexSize → List UInt8 → Guarded StreamError (List UInt8))
    (destination : List UInt8) (count n : Nat) : Guarded StreamError (List UInt8) :=
  ofExcept (VertexBuffer.size n) >>= overFront step destination count

def run (g : Guarded StreamError α) (bytes : List UInt8) : Except (Fault StreamError) α :=
  match g (.ofBytes bytes) with
  | .ok a _ => .ok a
  | .error e _ => .error e

variable {g : Guarded StreamError α} {m : Reading StreamError α}
  {step : VertexSize → List UInt8 → Guarded StreamError (List UInt8)}

theorem run_of_ok {a : α} {r : Reader} (h : Guards g m) (hlim : stream.length < Capacity.limit)
    (hm : m (.ofBytes stream) = .ok a r) : g.run stream = .ok a := by
  rw [run, ((h (.ofBytes stream) hlim).ok hm).1]

theorem run_of_error {e : StreamError} {r : Reader} (h : Guards g m)
    (hlim : stream.length < Capacity.limit) (hm : m (.ofBytes stream) = .error e r) :
    g.run stream = .error (.error e) := by
  rw [run, (h (.ofBytes stream) hlim).error hm]

theorem overFront_of_le {size : VertexSize} (hlim : count * size.val < Capacity.limit)
    (hle : count * size.val ≤ destination.length) :
    overFront step destination count size = step size (destination.take (count * size.val)) >>=
      fun found => pure (found ++ destination.drop (count * size.val)) := by
  have hfront := slice_of_le destination (Nat.zero_le (count * size.val)) hle
  have hrest := slice_of_le destination hle (Nat.le_refl _)
  rw [List.take_of_length_le (by rw [List.length_drop])] at hrest
  rw [overFront, VertexBuffer.byteLength_of_lt hlim, ofExcept_ok_bind,
    if_neg (Nat.not_lt.2 hle), hfront, hrest]
  rfl

/-- Decoding with a step that guards a reader does what decoding with that reader does. -/
theorem run_decodeInto {β : VertexSize → Type} {read : (size : VertexSize) → Decoding (β size)}
    {close : (size : VertexSize) → β size → List UInt8 → α} {view : α → List UInt8}
    {flat : (size : VertexSize) → β size → List UInt8} (hlim : stream.length < Capacity.limit)
    (hguards : ∀ (size : VertexSize) (front : List UInt8), front.length = count * size.val →
      Guards (step size front) (read size >>= fun found => pure (flat size found)))
    (hview : ∀ size found rest, view (close size found rest) = flat size found ++ rest) :
    run (decodeInto step destination count n) stream =
      ((VertexBuffer.decodeInto read close destination count n stream).map view).mapError
        .error := by
  by_cases hsize : ValidSize n
  · obtain ⟨size, rfl⟩ := hsize.exists_size
    rw [decodeInto, VertexBuffer.size_val, ofExcept_ok_bind]
    by_cases hsizes : count * size.val < Capacity.limit
    · by_cases hle : count * size.val ≤ destination.length
      · have hstep := (hguards size _ (List.length_take_of_le hle)).bind fun found =>
          Guards.pure (ε := StreamError) (found ++ destination.drop (count * size.val))
        rw [overFront_of_le hsizes hle]
        cases hrun : read size (.ofBytes stream) with
        | ok found r =>
          rw [VertexBuffer.decodeInto_of_read_ok hsizes hle hrun, Except.map, hview]
          exact run_of_ok hstep hlim (bind_of_ok (bind_of_ok hrun))
        | error e r =>
          rw [VertexBuffer.decodeInto_of_read_error hsizes hle hrun]
          exact run_of_error hstep hlim (bind_of_error (bind_of_error hrun))
      · have hlt := Nat.lt_of_not_le hle
        rw [VertexBuffer.decodeInto_of_lt hsizes hlt, overFront,
          VertexBuffer.byteLength_of_lt hsizes, ofExcept_ok_bind, if_pos hlt]
        rfl
    · have hle := Nat.le_of_not_lt hsizes
      rw [VertexBuffer.decodeInto_of_limit_le hle, overFront, VertexBuffer.byteLength_of_le hle]
      rfl
  · rw [VertexBuffer.decodeInto_of_not_valid hsize, decodeInto,
      VertexBuffer.size_of_not_valid hsize]
    rfl

end Guarded

theorem FormatByte.tag_iff (f : UInt8) : f &&& 0xF0 = tag ↔ f.toNat / 16 = 10 := by
  have h : ∀ i : Fin 256, UInt8.ofNat i &&& 0xF0 = tag ↔ (UInt8.ofNat i).toNat / 16 = 10 := by
    decide +kernel
  simpa using h ⟨f.toNat, f.toNat_lt⟩

theorem FormatByte.maxDecodeVersion_lt_iff (f : UInt8) :
    maxDecodeVersion < f &&& 0x0F ↔ 1 < f.toNat % 16 := by
  have h : ∀ i : Fin 256,
      maxDecodeVersion < UInt8.ofNat i &&& 0x0F ↔ 1 < (UInt8.ofNat i).toNat % 16 := by
    decide +kernel
  simpa using h ⟨f.toNat, f.toNat_lt⟩

/-- How decoding ends, for every input. Both decoders do what their guarded forms do, which
fault on an access out of its range; so there is none. -/
theorem decodeInto_outcome (destination : List UInt8) (count n : Nat) (stream : List UInt8) :
    let delta := DeltaStream.decodeInto destination count n stream
    let plane := PlaneStream.decodeInto destination count n stream
    (stream.length < Capacity.limit →
      (Guarded.decodeInto Guarded.deltaStream destination count n).run stream =
        (delta.map (·.bytes)).mapError .error ∧
      (Guarded.decodeInto Guarded.planeStream destination count n).run stream =
        plane.mapError .error) ∧
    Checked destination count n delta ∧
    (Fits destination count n → stream.length < 1 + n →
      delta = .error (.truncated (1 + n) stream.length)) ∧
    (∀ f, stream.head? = some f →
      (delta = .error (.frame (.invalidTag f)) ↔
        Fits destination count n ∧ 1 + n ≤ stream.length ∧ f.toNat / 16 ≠ 10) ∧
      (delta = .error (.frame (.unsupportedVersion (f &&& 0x0F))) ↔
        Fits destination count n ∧ 1 + n ≤ stream.length ∧ f.toNat / 16 = 10 ∧
          1 < f.toNat % 16)) ∧
    (∀ e, delta = .error e → e = .invalidVertexSize n ∨ e = .sourceTooSmall Capacity.largest 0 ∨
      e = .outputTooSmall (count * n) destination.length ∨
      (∃ f, stream.head? = some f ∧
        (e = .frame (.invalidTag f) ∨ e = .frame (.unsupportedVersion (f &&& 0x0F)))) ∨
      (∃ needed available, e = .truncated needed available ∧ available < needed) ∨
      ∃ found, found ≠ Layout.tailSize n ∧ e = .trailingData (Layout.tailSize n) found) ∧
    Checked destination count n plane ∧
    ∀ e, plane = .error e → e = .invalidVertexSize n ∨ e = .sourceTooSmall Capacity.largest 0 ∨
      e = .outputTooSmall (count * n) destination.length ∨
      (∃ available, available < 4 ∧ e = .truncated 4 available) ∨
      ∃ found, 0 < found ∧ e = .trailingData 0 found := by
  intro delta plane
  have hdelta : IntoEnding destination count n (DeltaStream.ReadEnding n stream) delta :=
    decodeInto_ending fun _ => DeltaStream.decodeBefore_ending
  have hplane : IntoEnding destination count n PlaneStream.ReadEnding plane :=
    decodeInto_ending fun size _ => PlaneStream.decodeBefore_ending _ size
  refine ⟨fun hlim => ⟨?_, ?_⟩, hdelta.checked_iff (DeltaStream.readEnding_neverChecks n stream),
    fun hfits => (hdelta.of_fits hfits).eq_truncated, fun f hhead => ⟨?_, ?_⟩, fun e he => ?_,
    hplane.checked_iff (PlaneStream.readEnding_neverChecks n), fun e he => ?_⟩
  · exact Guarded.run_decodeInto hlim (fun _ _ hfront => Guards.deltaStream hfront)
      fun _ _ _ => rfl
  · rw [← id_eq plane, ← Except.map_id]
    exact Guarded.run_decodeInto hlim (fun _ _ hfront => Guards.planeStream hfront)
      fun _ _ _ => rfl
  · rw [ne_eq, ← FormatByte.tag_iff]
    exact hdelta.frame_iff fun h => h.invalidTag_iff hhead
  · rw [← FormatByte.tag_iff, ← FormatByte.maxDecodeVersion_lt_iff]
    exact hdelta.frame_iff fun h => h.unsupportedVersion_iff hhead
  · rw [he] at hdelta
    exact hdelta.error_cases.imp_right (Or.imp_right (Or.imp_right (·.error_cases)))
  · rw [he] at hplane
    exact hplane.error_cases.imp_right (Or.imp_right (Or.imp_right (·.error_cases)))

theorem decodeInto_outcome_one_record :
    DeltaStream.decodeInto [9, 9, 9, 9] 1 4 [0xB0, 0, 0, 0, 0] =
      .error (.frame (.invalidTag 0xB0)) ∧
    (Guarded.decodeInto Guarded.deltaStream [9, 9, 9, 9] 1 4).run [0xB0, 0, 0, 0, 0] =
      .error (.error (.frame (.invalidTag 0xB0))) ∧
    DeltaStream.decodeInto [9, 9, 9, 9] 1 4 [0xB0, 0] = .error (.truncated 5 2) ∧
    (Guarded.decodeInto Guarded.planeStream [9, 9, 9, 9] 1 4).run [0xB0, 0] =
      .error (.error (.truncated 4 2)) := by
  have hfits : Fits [9, 9, 9, 9] 1 4 := ⟨by decide, by decide, by decide⟩
  obtain ⟨hguarded, _, _, hhead, _⟩ := decodeInto_outcome [9, 9, 9, 9] 1 4 [0xB0, 0, 0, 0, 0]
  obtain ⟨hguarded', _, hshort, _⟩ := decodeInto_outcome [9, 9, 9, 9] 1 4 [0xB0, 0]
  have htag := (hhead 0xB0 rfl).1.2 ⟨hfits, by decide, by decide⟩
  have hdelta := (hguarded (by decide)).1
  have hplane := (hguarded' (by decide)).2
  have hmask : PlaneStream.decodeInto [9, 9, 9, 9] 1 4 [0xB0, 0] = .error (.truncated 4 2) := by
    with_unfolding_all rfl
  rw [htag] at hdelta
  rw [hmask] at hplane
  exact ⟨htag, hdelta, hshort hfits (by decide), hplane⟩

end VertexPack
