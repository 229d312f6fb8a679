import VertexPack.Proofs.Coders
import VertexPack.Proofs.RoundTrip

/-! A single block is read back from its bytes, whatever follows them, and both sides then predict
from its last record. A coder that fails goes on predicting from the record it had. -/
namespace VertexPack

/-- Why a block of records of `size` bytes does not have the given length. -/
inductive Block.WrongLength (length size : Nat) : StreamError → Prop
  | count (h : length / size = 0 ∨ 256 < length / size) :
    WrongLength length size (.invalidBlockLength (length / size) 256)
  | remainder (hpos : 0 < length / size) (hmax : length / size ≤ 256) (h : ¬ size ∣ length) :
    WrongLength length size (.sourceTooSmall ((length / size + 1) * size) length)

theorem Block.count_eq_error_iff {length size : Nat} {e : StreamError} :
    count length size = .error e ↔ WrongLength length size e := by
  constructor
  · intro h
    rw [count] at h
    split at h
    · rename_i hcount
      cases h
      exact .count hcount
    · split at h
      · rename_i hcount hwhole
        cases h
        rw [not_or, Nat.not_lt] at hcount
        exact .remainder (Nat.pos_of_ne_zero hcount.1) hcount.2
          fun hdvd => hwhole (Nat.mod_eq_zero_of_dvd hdvd)
      · cases h
  · intro h
    cases h with
    | count h => exact if_pos h
    | remainder hpos hmax h =>
      have hcount : ¬ (length / size = 0 ∨ length / size > Layout.maxBlockLength) :=
        not_or.2 ⟨Nat.ne_of_gt hpos, Nat.not_lt.2 hmax⟩
      exact (if_neg hcount).trans (if_pos fun hmod => h (Nat.dvd_of_mod_eq_zero hmod))

namespace Predictor
variable {σ : Type} {p q : Predictor} {obs : Observer σ} {block : List UInt8} {s s' : Session σ}

theorem exists_records {n : Nat} (hpos : 0 < n) (hlen : block.length = n * p.size) :
    ∃ records : List (Record p.size), records ≠ [] ∧ records.length = n ∧
      block = Record.flatten records :=
  ⟨_, Record.split_ne_nil block hpos, Record.split_length, (Record.flatten_split_self hlen).symm⟩

theorem exists_records_of_encodeBlock_eq_ok (h : p.encodeBlock obs block s = .ok q s') :
    ∃ records : List (Record p.size), records ≠ [] ∧
      records.length ≤ Layout.maxBlockLength ∧ block = Record.flatten records := by
  cases hcount : Block.count block.length p.size with
  | error e =>
    cases h.symm.trans (Coding.encodeBlock_of_count_error s hcount).1
  | ok n =>
    obtain ⟨hpos, hmax, hlen⟩ := Block.of_count_eq_ok hcount
    obtain ⟨records, hne, rfl, rfl⟩ := exists_records hpos hlen
    exact ⟨records, hne, hmax, rfl⟩

theorem decodeBlock_of_moves {records : List (Record p.size)} (hne : records ≠ [])
    (hmax : records.length ≤ Layout.maxBlockLength) {r r' : Reader}
    (hmove : r.Moves (Block.bytes p.record records) r') (hroom : Layout.headroom ≤ r'.remaining) :
    p.decodeBlock (Record.flatten records).length r =
      .ok (Record.flatten records, p.advance records) r' := by
  have hcount := Block.count_mul p.size_pos (List.length_pos_iff.2 hne) hmax
  have hread : Block.decode p.record records.length r = .ok records r' :=
    (Block.decode_reads p.record records.length).complete
      ⟨rfl, Block.form_bytes p.record records⟩ hmove hroom
  rw [decodeBlock, Record.flatten_length, hcount]
  exact bind_of_ok hread

/-- Where a block was written, the same block is read, and what the reader then predicts from is
what the writer predicts from: the last record of the block. -/
theorem of_encodeBlock_eq_ok (h : p.encodeBlock obs block s = .ok q s') :
    q.size = p.size ∧ q.bytes = block.drop (block.length - p.size) ∧
    ∃ bytes, s'.writer = s.writer.push bytes ∧ bytes.length ≤ s.writer.remaining ∧
      ∀ (r : Reader) (suffix : List UInt8), Layout.headroom ≤ suffix.length →
        r.rest = bytes ++ suffix → ∃ r', p.decodeBlock block.length r = .ok (block, q) r' ∧
          r'.data = r.data ∧ r'.rest = suffix := by
  obtain ⟨records, hne, hmax, rfl⟩ := exists_records_of_encodeBlock_eq_ok h
  obtain ⟨room, happends⟩ := DeltaStream.Block.encode_appends obs p.record records
  rw [encodeBlock_flatten obs p hne hmax] at h
  obtain ⟨rfl, hwriter⟩ := happends.of_bind_pure_eq_ok h
  obtain ⟨_, _, hstep, -⟩ := bind_eq_ok_iff.1 h
  refine ⟨rfl, (Record.flatten_last p.record hne).2.symm, _, hwriter,
    happends.length_le_remaining hstep, fun r suffix hsuffix hrest => ?_⟩
  obtain ⟨r', hmove, rfl⟩ := Reader.exists_moves hrest
  exact ⟨r', decodeBlock_of_moves hne hmax hmove hsuffix, hmove.data_eq, rfl⟩

theorem encodeBlock_of_room (obs : Observer σ) {n : Nat} (hpos : 0 < n)
    (hmax : n ≤ Layout.maxBlockLength) (hlen : block.length = n * p.size) :
    ∃ room, ∀ t : Session σ, room ≤ t.writer.remaining →
      ∃ q t', p.encodeBlock obs block t = .ok q t' := by
  obtain ⟨records, hne, rfl, rfl⟩ := exists_records hpos hlen
  obtain ⟨room, happends⟩ := DeltaStream.Block.encode_appends obs p.record records
  refine ⟨room, fun t ht => ?_⟩
  obtain ⟨t', ht', -⟩ := happends.fits t ht
  rw [encodeBlock_flatten obs p hne hmax]
  exact ⟨_, t', bind_of_ok ht'⟩

end Predictor

namespace Coding
variable {σ : Type}

/-- A block of whole records can be written, and is read back from what was written: the reader
stops behind it, and both sides have the last record of the block to predict from. Coders that hold
their predictor do the same; when they fail they still hold the one they had, and for a length that
no block has they fail before anything else. -/
theorem decodeBlock_encodeBlock (p : Predictor) (obs : Observer σ) (block : List UInt8)
    (s : Session σ) (length : Nat) (r : Reader) :
    (∀ n, 0 < n → n ≤ 256 → block.length = n * p.size → ∃ room, ∀ t : Session σ,
      room ≤ t.writer.remaining → ∃ q t', p.encodeBlock obs block t = .ok q t') ∧
    (∀ q s', p.encodeBlock obs block s = .ok q s' →
      q.size = p.size ∧ q.bytes = block.drop (block.length - p.size) ∧
      ∃ bytes, s'.writer = s.writer.push bytes ∧ bytes.length ≤ s.writer.remaining ∧
        ∀ (r : Reader) (suffix : List UInt8), 24 ≤ suffix.length → r.rest = bytes ++ suffix →
          ∃ r', p.decodeBlock block.length r = .ok (block, q) r' ∧
            r'.data = r.data ∧ r'.rest = suffix) ∧
    ((∃ q s', p.encodeBlock obs block s = .ok q s' ∧
        encodeBlock obs block ⟨s, p⟩ = .ok () ⟨s', q⟩) ∨
      ∃ e s', p.encodeBlock obs block s = .error e s' ∧
        encodeBlock obs block ⟨s, p⟩ = .error e ⟨s', p⟩) ∧
    ((∃ bs q r', p.decodeBlock length r = .ok (bs, q) r' ∧
        decodeBlock length ⟨r, p⟩ = .ok bs ⟨r', q⟩) ∨
      ∃ e r', p.decodeBlock length r = .error e r' ∧
        decodeBlock length ⟨r, p⟩ = .error e ⟨r', p⟩) ∧
    (∀ e, Block.WrongLength block.length p.size e →
      encodeBlock obs block ⟨s, p⟩ = .error e ⟨s, p⟩) ∧
    ∀ e, Block.WrongLength length p.size e → decodeBlock length ⟨r, p⟩ = .error e ⟨r, p⟩ := by
  refine ⟨fun n hpos hmax hlen => Predictor.encodeBlock_of_room obs hpos hmax hlen,
    fun q s' h => Predictor.of_encodeBlock_eq_ok h, encodeBlock_cases obs block s p,
    decodeBlock_cases length r p, fun e he => ?_, fun e he => ?_⟩
  · exact (encodeBlock_of_count_error s (Block.count_eq_error_iff.2 he)).2
  · exact (decodeBlock_of_count_error r (Block.count_eq_error_iff.2 he)).2

end Coding
end VertexPack
