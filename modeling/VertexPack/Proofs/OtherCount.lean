import VertexPack.Proofs.Repeating
import VertexPack.Proofs.RoundTrip

/-! A delta stream that is decoded with another count than it was encoded with. As long as both
counts have as many groups, the blocks end where they did; the groups of the last one hold a few
records less or, because they are padded with zeros, its last record a few times more. -/
namespace VertexPack

namespace Group

theorem flatMap_split (ds : List UInt8) : (split ds).flatMap Vector.toList =
    ds ++ List.replicate (16 * Layout.groupCount ds.length - ds.length) 0 := by
  have hroom : ds.length ≤ ceilDiv ds.length 16 * 16 := le_ceilDiv_mul (by decide)
  rw [← split_length]
  refine flatMap_toList_eq ?_ fun j hj i => getElem_split hj i
  rw [split_length, Nat.mul_comm]
  exact hroom

end Group

theorem Channel.columnForm_repeatLast (p : UInt8) {m : Nat} {column : List UInt8}
    (hm : Layout.groupCount m = Layout.groupCount column.length) :
    ColumnForm p (repeatLast p m column) (columnBytes p column) := by
  have hroom : m ≤ Layout.groupCount m * 16 := le_ceilDiv_mul (by decide)
  refine ⟨Group.split (Delta.encode p column), ?_, ?_, groupsForm_bytes _⟩
  · rw [Group.split_length, Delta.encode_length, repeatLast_length, hm]
  · have hlen : (Delta.encode p column).length = column.length := Delta.encode_length p column
    rw [repeatLast_length, Delta.encode_repeatLast, Group.flatMap_split]
    exact take_append_replicate 0 (by rw [hlen]) (by rw [hlen]; omega)

theorem Block.form_repeatLast {size m : Nat} (p : Record size) {records : List (Record size)}
    (hm : Layout.groupCount m = Layout.groupCount records.length) :
    Form p (repeatLast p m records) (bytes p records) := by
  refine ⟨fun k => Channel.columnBytes (p.get k) (Record.column k records), fun k => ?_, ?_⟩
  · rw [Record.column_repeatLast]
    exact Channel.columnForm_repeatLast (p.get k) (by rwa [Record.column_length])
  · rw [bytes, List.flatMap, List.ofFn_eq_map]

namespace DeltaStream

/-- The blocks of some records are blocks of as many groups of these records with the last one
repeated. -/
theorem blocksForm_repeatLast {size m B : Nat} (hB : 0 < B) (hdvd : 16 ∣ B) (p : Record size)
    (records : List (Record size))
    (hm : Layout.groupCount m = Layout.groupCount records.length) :
    BlocksForm p (chunks B (repeatLast p m records)) (blocksBytes p (chunks B records)) := by
  obtain ⟨q, rfl⟩ := hdvd
  induction records using chunks_induction hB generalizing p m with
  | nil =>
    have hzero : m = 0 := by
      simp only [Layout.groupCount, Layout.groupSize, ceilDiv, List.length_nil] at hm
      omega
    subst hzero
    simp [repeatLast, chunks_nil hB, BlocksForm, blocksBytes]
  | step records hne ih =>
    have hpos := List.length_pos_iff.2 hne
    simp only [Layout.groupCount, Layout.groupSize, ceilDiv] at hm ih
    by_cases hlast : records.length ≤ 16 * q
    · have hne' : repeatLast p m records ≠ [] := by
        apply List.ne_nil_of_length_pos
        rw [repeatLast_length]
        omega
      have hle' : (repeatLast p m records).length ≤ 16 * q := by
        rw [repeatLast_length]
        omega
      rw [chunks_of_length_le hB hne hlast, chunks_of_length_le hB hne' hle']
      exact ⟨_, [], Block.form_repeatLast p hm, rfl, rfl⟩
    · -- A block in front of the last one is full for either count.
      have hfull : (records.take (16 * q)).length = 16 * q := by
        rw [List.length_take]
        omega
      have hsplit : repeatLast p m records = records.take (16 * q) ++
          repeatLast ((records.take (16 * q)).getLastD p) (m - 16 * q)
            (records.drop (16 * q)) := by
        conv_lhs => rw [← List.take_append_drop (16 * q) records]
        rw [repeatLast_append (by omega), hfull]
      rw [hsplit, chunks_cons hB (List.ne_nil_of_length_pos (by omega)) (Nat.le_of_eq hfull)
        (fun hlt => absurd hfull (Nat.ne_of_lt hlt)), chunks_of_ne_nil hB hne]
      refine ⟨_, _, Block.form_bytes p _, ih _ ?_, rfl⟩
      rw [List.length_drop]
      omega

theorem streamForm_repeatLast (size : VertexSize) (format : FormatByte) {m count : Nat}
    (source : List UInt8) (hversion : format.version ≤ FormatByte.maxDecodeVersion)
    (hm : ceilDiv m 16 = ceilDiv count 16) :
    StreamForm size format
      (repeatLast (firstRecord (Record.split size.val count source)) m
        (Record.split size.val count source))
      (streamBytes format.version count size.val source) := by
  refine ⟨_, _, hversion, ?_, ?_, rfl⟩
  · rw [seed_tailBytes]
    refine blocksForm_repeatLast (Layout.blockLength_pos size)
      (Layout.groupSize_dvd_blockLength size.val) _ _ ?_
    rw [Record.split_length]
    exact hm
  · rw [tailBytes_length, Vector.length_toList]

section
variable {σ : Type} {obs : Observer σ} {observed : σ} {version : UInt8} {count size len m : Nat}
  {source destination out : List UInt8} {s : Session σ}

/-- A stream does not tell how many records it has, only how many groups. Decoded with another count
that has as many, it gives the records that there are, and copies of the last one for those that
there are not. -/
theorem decodeInto_other_count
    (h : encode obs version count size source (.start destination observed) = .ok len s)
    (hversion : version ≤ 1) (hcount : 0 < count) (hm : ceilDiv m 16 = ceilDiv count 16)
    (hlimit : out.length < Capacity.limit) (hout : m * size ≤ out.length) :
    ∃ d, decodeInto out m size (s.writer.destination.take len) = .ok d ∧
      d.bytes.drop (m * size) = out.drop (m * size) ∧
      Record.Repeats size count m source d.bytes := by
  obtain ⟨hadmissible, _⟩ := of_encode_eq_ok obs observed h
  rw [take_of_encode_eq_ok obs observed h]
  obtain ⟨size, rfl⟩ := hadmissible.validSize.exists_size
  have hform := streamForm_repeatLast size ⟨version, hadmissible.version_le⟩ source hversion hm
  obtain ⟨r, hread⟩ := read_of_streamForm (repeatLast_length _ _ _) hform
  refine ⟨_, VertexBuffer.decodeInto_of_read_ok (Nat.lt_of_le_of_lt hout hlimit) hout hread,
    List.drop_left' ?_, Record.repeats_repeatLast _ hcount hadmissible.le_length _⟩
  rw [Record.flatten_length, repeatLast_length]

theorem decodeInto_other_count_one_record :
    ∃ s, encode Observer.silent 1 1 4 [9, 8, 7, 6] (.start (List.replicate 40 0) ()) = .ok 37 s ∧
      ∃ d, decodeInto (List.replicate 13 3) 3 4 (s.writer.destination.take 37) = .ok d ∧
        d.bytes.take 4 = [9, 8, 7, 6] ∧ Record.bytesAt 4 d.bytes 2 = [9, 8, 7, 6] ∧
        d.bytes.drop 12 = [3] := by
  have hadmissible : Admissible 1 1 4 [9, 8, 7, 6] := ⟨by decide, by decide, by decide, by decide⟩
  have hlen : streamLength 1 4 [9, 8, 7, 6] = 37 := by decide
  have hle : streamLength 1 4 [9, 8, 7, 6] ≤ (List.replicate 40 (0 : UInt8)).length := by decide
  obtain ⟨s, hs, _⟩ := encode_of_le Observer.silent () hadmissible hle
  rw [hlen] at hs
  have hm : ceilDiv 3 16 = ceilDiv 1 16 := by decide
  have hout : 3 * 4 ≤ (List.replicate 13 (3 : UInt8)).length := by decide
  obtain ⟨d, hd, hrest, hrepeats⟩ :=
    decodeInto_other_count hs (by decide) (by decide) hm (by decide) hout
  exact ⟨s, hs, d, hd, hrepeats.front, hrepeats.copies 2 (by decide) (by decide), hrest⟩

end
end DeltaStream
end VertexPack
