import VertexPack.DeltaStream
import VertexPack.Proofs.Run
import Mathlib.Data.List.Basic

/-! Record sizes, block lengths and the tail; and what is checked before a stream is written or
read: the record size, the version, and the lengths of the source and of the destination, in
this order. -/
namespace VertexPack

namespace Capacity
variable {ε : Type}

theorem mul_bind_add (a b c : Nat) :
    ((mul a b).bind fun n => add n c) = checked (a * b + c) := by
  by_cases h : a * b < limit
  · rw [mul, checked, if_pos h, Option.bind_some, add]
  · have hsum : ¬ a * b + c < limit := by omega
    rw [mul, checked, if_neg h, Option.bind_none, checked, if_neg hsum]

theorem outcome_checked (n : Nat) (e : ε) :
    (match checked n with
      | some m => .ok m
      | none => .error e) = if n < limit then Except.ok n else .error e := by
  by_cases h : n < limit
  · rw [checked, if_pos h, if_pos h]
  · rw [checked, if_neg h, if_neg h]

end Capacity

/-- The record sizes that the formats can hold: multiples of four up to 256. -/
def ValidSize (n : Nat) : Prop := 0 < n ∧ n ≤ 256 ∧ 4 ∣ n

instance (n : Nat) : Decidable (ValidSize n) := inferInstanceAs (Decidable (_ ∧ _ ∧ _))

theorem VertexSize.valid (size : VertexSize) : ValidSize size.val :=
  ⟨size.pos, size.le_max, size.four_dvd⟩

theorem ValidSize.exists_size {n : Nat} (h : ValidSize n) : ∃ size : VertexSize, size.val = n :=
  ⟨⟨n, h.1, h.2.1, h.2.2⟩, rfl⟩

/-- A capacity bound that is `worst` where that is a size, and is refused elsewhere. -/
structure IsBound {ε : Type} (bound : Nat → Nat → Except ε Nat) (worst : Nat → Nat → Nat)
    (refusal : Nat → Nat → ε) : Prop where
  eq_ite (count : Nat) (size : VertexSize) : bound count size.val =
    if worst count size.val < Capacity.limit then .ok (worst count size.val)
    else .error (refusal count size.val)
  of_not_valid (count : Nat) {n : Nat} (h : ¬ ValidSize n) : ∃ e, bound count n = .error e

namespace IsBound
variable {ε : Type} {bound : Nat → Nat → Except ε Nat} {worst : Nat → Nat → Nat}
  {refusal : Nat → Nat → ε} (h : IsBound bound worst refusal) {count b : Nat}
include h

theorem of_lt {size : VertexSize} (hlt : worst count size.val < Capacity.limit) :
    bound count size.val = .ok (worst count size.val) := by
  rw [h.eq_ite, if_pos hlt]

theorem of_eq_ok {n : Nat} (hb : bound count n = .ok b) :
    ValidSize n ∧ b < Capacity.limit ∧ b = worst count n := by
  by_cases hsize : ValidSize n
  · obtain ⟨size, rfl⟩ := hsize.exists_size
    rw [h.eq_ite] at hb
    split at hb
    · cases hb
      exact ⟨size.valid, ‹_›, rfl⟩
    · cases hb
  · obtain ⟨e, he⟩ := h.of_not_valid count hsize
    cases he.symm.trans hb

theorem exists_le {fewer : Nat} {size : VertexSize}
    (hmono : worst fewer size.val ≤ worst count size.val) (hb : bound count size.val = .ok b) :
    ∃ b' ≤ b, bound fewer size.val = .ok b' := by
  obtain ⟨-, hlimit, rfl⟩ := h.of_eq_ok hb
  exact ⟨_, hmono, h.of_lt (Nat.lt_of_le_of_lt hmono hlimit)⟩

end IsBound

namespace Layout

theorem le_blockLength (size : VertexSize) : 2 * groupSize ≤ blockLength size.val := by
  have hdiv : 8192 / 256 ≤ 8192 / size.val := Nat.div_le_div_left size.le_max size.pos
  unfold blockLength blockBudget groupSize maxBlockLength
  omega

theorem blockLength_pos (size : VertexSize) : 0 < blockLength size.val :=
  Nat.lt_of_lt_of_le (by decide) (le_blockLength size)

theorem groupSize_dvd_blockLength (size : Nat) : groupSize ∣ blockLength size := by
  unfold blockLength
  by_cases h : blockBudget / size / groupSize * groupSize ≤ maxBlockLength
  · rw [Nat.min_eq_left h]
    exact Nat.dvd_mul_left _ _
  · rw [Nat.min_eq_right (Nat.le_of_not_le h)]
    decide

theorem size_le_tailSize (size : Nat) : size ≤ tailSize size := Nat.le_max_left _ _

theorem headroom_le_tailSize (size : Nat) : headroom ≤ tailSize size :=
  Nat.le_trans (by decide) (Nat.le_max_right size minTailSize)

end Layout

namespace VertexBuffer

theorem size_val (s : VertexSize) : size s.val = .ok s := by
  have hn : 0 < s.val ∧ s.val ≤ 256 ∧ 4 ∣ s.val := s.valid
  rw [size, VertexSize.ofNat, dif_pos hn]
  rfl

theorem size_of_not_valid {n : Nat} (h : ¬ ValidSize n) :
    size n = .error (.invalidVertexSize n) := by
  have hn : ¬ (0 < n ∧ n ≤ 256 ∧ 4 ∣ n) := h
  rw [size, VertexSize.ofNat, dif_neg hn]
  rfl

theorem byteLength_of_lt {count size : Nat} (h : count * size < Capacity.limit) :
    byteLength count size = .ok (count * size) :=
  (Capacity.outcome_checked _ _).trans (if_pos h)

theorem byteLength_of_le {count size : Nat} (h : Capacity.limit ≤ count * size) :
    byteLength count size = .error (.sourceTooSmall Capacity.largest 0) :=
  (Capacity.outcome_checked _ _).trans (if_neg (Nat.not_lt.2 h))

variable {size : VertexSize} {count : Nat} {source destination : List UInt8}

theorem records_of_le (hlim : count * size.val < Capacity.limit)
    (h : count * size.val ≤ source.length) :
    records size count source = .ok (Record.split size.val count source) := by
  rw [records, byteLength_of_lt hlim]
  exact if_pos (hasAtLeast_iff.2 h)

/-- A source that is too short, and one that no source could be long enough for. -/
theorem records_of_short
    (h : source.length < count * size.val ∨ Capacity.limit ≤ count * size.val) :
    ∃ needed available, records size count source = .error (.sourceTooSmall needed available) := by
  by_cases hlim : count * size.val < Capacity.limit
  · have hshort : ¬ hasAtLeast (count * size.val) source = true := by
      rw [hasAtLeast_iff]
      omega
    refine ⟨count * size.val, source.length, ?_⟩
    rw [records, byteLength_of_lt hlim]
    exact if_neg hshort
  · refine ⟨Capacity.largest, 0, ?_⟩
    rw [records, byteLength_of_le (Nat.le_of_not_lt hlim)]
    rfl

theorem beyond_of_le (hlim : count * size.val < Capacity.limit)
    (h : count * size.val ≤ destination.length) :
    beyond size count destination = .ok (destination.drop (count * size.val)) := by
  rw [beyond, byteLength_of_lt hlim]
  exact if_pos (hasAtLeast_iff.2 h)

theorem beyond_of_limit_le (h : Capacity.limit ≤ count * size.val) :
    beyond size count destination = .error (.sourceTooSmall Capacity.largest 0) := by
  rw [beyond, byteLength_of_le h]
  rfl

theorem beyond_of_lt (hlim : count * size.val < Capacity.limit)
    (h : destination.length < count * size.val) :
    beyond size count destination =
      .error (.outputTooSmall (count * size.val) destination.length) := by
  have hshort : ¬ hasAtLeast (count * size.val) destination = true := by
    rw [hasAtLeast_iff]
    exact Nat.not_le.2 h
  rw [beyond, byteLength_of_lt hlim]
  exact if_neg hshort

section Decode
variable {β : VertexSize → Type} {α : Type} {read : (size : VertexSize) → Decoding (β size)}
  {close : (size : VertexSize) → β size → List UInt8 → α} {stream : List UInt8} {found : β size}
  {e : StreamError} {r : Reader}

theorem decodeInto_of_not_valid {n : Nat} (h : ¬ ValidSize n) :
    decodeInto read close destination count n stream = .error (.invalidVertexSize n) := by
  rw [decodeInto, size_of_not_valid h]
  rfl

theorem decodeInto_eq_bind :
    decodeInto read close destination count size.val stream =
      beyond size count destination >>= fun rest => decodeBefore read close rest size stream := by
  rw [decodeInto, size_val]
  rfl

theorem decodeInto_of_limit_le (h : Capacity.limit ≤ count * size.val) :
    decodeInto read close destination count size.val stream =
      .error (.sourceTooSmall Capacity.largest 0) := by
  rw [decodeInto_eq_bind, beyond_of_limit_le h]
  rfl

theorem decodeInto_of_lt (hlim : count * size.val < Capacity.limit)
    (h : destination.length < count * size.val) :
    decodeInto read close destination count size.val stream =
      .error (.outputTooSmall (count * size.val) destination.length) := by
  rw [decodeInto_eq_bind, beyond_of_lt hlim h]
  rfl

/-- Where the size is valid and the records fit, only the stream is left to be read. -/
theorem decodeInto_of_le (hlim : count * size.val < Capacity.limit)
    (h : count * size.val ≤ destination.length) :
    decodeInto read close destination count size.val stream =
      decodeBefore read close (destination.drop (count * size.val)) size stream := by
  rw [decodeInto_eq_bind, beyond_of_le hlim h]
  rfl

theorem decodeInto_of_read_ok (hlim : count * size.val < Capacity.limit)
    (hle : count * size.val ≤ destination.length)
    (h : read size (.ofBytes stream) = .ok found r) :
    decodeInto read close destination count size.val stream =
      .ok (close size found (destination.drop (count * size.val))) := by
  rw [decodeInto_of_le hlim hle, decodeBefore, h]

theorem decodeInto_of_read_error (hlim : count * size.val < Capacity.limit)
    (hle : count * size.val ≤ destination.length)
    (h : read size (.ofBytes stream) = .error e r) :
    decodeInto read close destination count size.val stream = .error e := by
  rw [decodeInto_of_le hlim hle, decodeBefore, h]

theorem decode_of_read_ok (hlim : count * size.val < Capacity.limit)
    (h : read size (.ofBytes stream) = .ok found r) :
    decode read close count size.val stream = .ok (close size found []) := by
  rw [decode, size_val]
  change (byteLength count size.val >>= fun _ => _) = _
  rw [byteLength_of_lt hlim]
  change decodeBefore read close [] size stream = _
  rw [decodeBefore, h]

theorem decodeInto_eq_ok_iff {a : α} (hlim : count * size.val < Capacity.limit)
    (hle : count * size.val ≤ destination.length) :
    decodeInto read close destination count size.val stream = .ok a ↔
      ∃ found r, read size (.ofBytes stream) = .ok found r ∧
        a = close size found (destination.drop (count * size.val)) := by
  constructor
  · intro h
    cases hread : read size (.ofBytes stream) with
    | ok found r =>
      rw [decodeInto_of_read_ok hlim hle hread] at h
      cases h
      exact ⟨found, r, rfl, rfl⟩
    | error e r =>
      rw [decodeInto_of_read_error hlim hle hread] at h
      cases h
  · rintro ⟨found, r, hread, rfl⟩
    exact decodeInto_of_read_ok hlim hle hread

theorem of_decodeInto_eq_ok {n : Nat} {a : α}
    (h : decodeInto read close destination count n stream = .ok a) :
    ∃ size : VertexSize, size.val = n ∧ count * n < Capacity.limit ∧
      count * n ≤ destination.length ∧ ∃ found r, read size (.ofBytes stream) = .ok found r ∧
        a = close size found (destination.drop (count * n)) := by
  by_cases hn : ValidSize n
  · obtain ⟨size, rfl⟩ := hn.exists_size
    by_cases hlim : count * size.val < Capacity.limit
    · by_cases hle : count * size.val ≤ destination.length
      · exact ⟨size, rfl, hlim, hle, (decodeInto_eq_ok_iff hlim hle).1 h⟩
      · rw [decodeInto_of_lt hlim (Nat.lt_of_not_le hle)] at h
        cases h
    · rw [decodeInto_of_limit_le (Nat.le_of_not_lt hlim)] at h
      cases h
  · rw [decodeInto_of_not_valid hn] at h
    cases h

end Decode
end VertexBuffer

namespace DeltaStream

def Job.ofSource (format : FormatByte) (size : VertexSize) (count : Nat)
    (source : List UInt8) : Job :=
  ⟨format, size, Record.split size.val count source⟩

section Encode
variable {σ : Type} {obs : Observer σ} {version : UInt8} {size : VertexSize} {count : Nat}
  {source : List UInt8} {s : Session σ}

theorem encode_of_prepare_ok {n : Nat} {job : Job}
    (h : Job.prepare version count n source = .ok job) :
    encode obs version count n source = job.encode obs := by
  rw [encode, h]
  rfl

theorem encode_of_prepare_error {n : Nat} {e : StreamError}
    (h : Job.prepare version count n source = .error e) :
    encode obs version count n source s = .error e s := by
  rw [encode, h]
  rfl

theorem prepare_of_not_valid {n : Nat} (h : ¬ ValidSize n) :
    Job.prepare version count n source = .error (.invalidVertexSize n) := by
  rw [Job.prepare, VertexBuffer.size_of_not_valid h]
  rfl

theorem prepare_of_lt (h : FormatByte.maxVersion < version) :
    Job.prepare version count size.val source = .error (.frame (.invalidVersion version)) := by
  rw [Job.prepare, VertexBuffer.size_val, FormatByte.ofVersion, dif_neg (UInt8.not_le.2 h)]
  rfl

theorem prepare_of_short (hv : version ≤ FormatByte.maxVersion)
    (h : source.length < count * size.val ∨ Capacity.limit ≤ count * size.val) :
    ∃ needed available, Job.prepare version count size.val source =
      .error (.sourceTooSmall needed available) := by
  obtain ⟨needed, available, hrecords⟩ := VertexBuffer.records_of_short h
  refine ⟨needed, available, ?_⟩
  rw [Job.prepare, VertexBuffer.size_val, FormatByte.ofVersion, dif_pos hv]
  change (VertexBuffer.records size count source >>= fun _ => _) = _
  rw [hrecords]
  rfl

theorem prepare_of_le (hv : version ≤ FormatByte.maxVersion)
    (hlim : count * size.val < Capacity.limit) (h : count * size.val ≤ source.length) :
    Job.prepare version count size.val source =
      .ok (.ofSource ⟨version, hv⟩ size count source) := by
  rw [Job.prepare, VertexBuffer.size_val, FormatByte.ofVersion, dif_pos hv]
  change (VertexBuffer.records size count source >>= fun _ => _) = _
  rw [VertexBuffer.records_of_le hlim h]
  rfl

end Encode

end DeltaStream
end VertexPack
