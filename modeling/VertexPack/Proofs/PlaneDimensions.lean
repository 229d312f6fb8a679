import VertexPack.Proofs.Delimiting
import VertexPack.Proofs.PlaneColumns
import VertexPack.Proofs.Repeating

/-! A plane stream that is decoded with other dimensions than it was encoded with. To a decoder a
stream is a list of chunks; the dimensions say how many of them there are, and which of them make
up a column. -/
namespace VertexPack.PlaneStream
open Plane

section Chunks
variable {size count : Nat}

def chunkTotal (size count : Nat) : Nat := size / 4 * chunkCount count

def Cut.toList (cut : Cut size count) : List Chunk :=
  (List.ofFn fun j => List.ofFn (cut j)).flatten

@[simp] theorem Cut.length_toList (cut : Cut size count) :
    cut.toList.length = chunkTotal size count := by
  simp [toList, chunkTotal, List.length_flatten, List.map_ofFn, Function.comp_def]

theorem Cut.bytes_eq_flatMap (cut : Cut size count) :
    cut.bytes = cut.toList.flatMap Chunk.bytes := by
  simp [bytes, toList, columnBytes, List.flatMap_def, List.map_flatten, List.map_ofFn,
    Function.comp_def, List.flatten_flatten]

theorem Cut.exists_toList {cs : List Chunk} (h : cs.length = chunkTotal size count) :
    ∃ cut : Cut size count, cut.toList = cs := by
  obtain ⟨f, rfl⟩ : ∃ f : Fin (size / 4 * chunkCount count) → Chunk, List.ofFn f = cs :=
    ⟨_, (List.ofFn_congr h cs.get).symm.trans (List.ofFn_get cs)⟩
  exact ⟨_, (List.ofFn_mul f).symm⟩

theorem Chunk.bytes_length_pos (c : Chunk) : 0 < c.bytes.length := by
  simp [bytes]

theorem flatMap_bytes_ne_nil {cs : List Chunk} (h : cs ≠ []) : cs.flatMap Chunk.bytes ≠ [] := by
  cases cs with
  | nil => contradiction
  | cons c cs =>
    intro hnil
    have hlen := congrArg List.length hnil
    have hpos := c.bytes_length_pos
    simp only [List.flatMap_cons, List.length_append, List.length_nil] at hlen
    omega

end Chunks

section Accept
variable {size : VertexSize} {count : Nat} {out : List UInt8} {cs : List Chunk}

theorem decodeInto_of_length_eq (hlim : count * size.val < Capacity.limit)
    (hle : count * size.val ≤ out.length) (h : cs.length = chunkTotal size.val count) :
    ∃ bytes, decodeInto out count size.val (cs.flatMap Chunk.bytes) = .ok bytes := by
  obtain ⟨cut, rfl⟩ := Cut.exists_toList h
  obtain ⟨records, hstores⟩ := cut.exists_stores size.four_dvd
  rw [← cut.bytes_eq_flatMap]
  exact ⟨_, decodeInto_of_stores hstores hlim hle⟩

theorem decodeInto_of_length_gt (hlim : count * size.val < Capacity.limit)
    (hle : count * size.val ≤ out.length) (h : chunkTotal size.val count < cs.length) :
    ∃ found, decodeInto out count size.val (cs.flatMap Chunk.bytes) =
      .error (.trailingData 0 found) := by
  obtain ⟨cut, hcut⟩ := Cut.exists_toList (List.length_take_of_le (Nat.le_of_lt h))
  obtain ⟨records, hstores⟩ := cut.exists_stores size.four_dvd
  have hrest : (cs.drop (chunkTotal size.val count)).flatMap Chunk.bytes ≠ [] :=
    flatMap_bytes_ne_nil (by simpa using h)
  obtain ⟨r, hread⟩ := read_append hstores hrest
  rw [cut.bytes_eq_flatMap, hcut, ← List.flatMap_append, List.take_append_drop] at hread
  exact ⟨_, VertexBuffer.decodeInto_of_read_error hlim hle hread⟩

/-- Where chunks are missing, the stream is the front part of one that has them. -/
theorem decodeInto_of_length_lt (hlim : count * size.val < Capacity.limit)
    (hle : count * size.val ≤ out.length) (h : cs.length < chunkTotal size.val count) :
    ∃ needed available, decodeInto out count size.val (cs.flatMap Chunk.bytes) =
      .error (.truncated needed available) := by
  obtain ⟨n, hn⟩ := Nat.exists_eq_add_of_lt h
  have hfilled : (cs ++ List.replicate (n + 1) (Chunk.ofWords [])).length =
      chunkTotal size.val count := by
    rw [hn, List.length_append, List.length_replicate, Nat.add_assoc]
  have hmissing : List.replicate (n + 1) (Chunk.ofWords []) ≠ [] := by simp
  obtain ⟨cut, hcut⟩ := Cut.exists_toList hfilled
  have hbytes := cut.bytes_eq_flatMap
  rw [hcut, List.flatMap_append] at hbytes
  obtain ⟨_, r, hread, needed, available, rfl, _⟩ :=
    read_front (flatMap_bytes_ne_nil hmissing) hbytes
  exact ⟨needed, available, VertexBuffer.decodeInto_of_read_error hlim hle hread⟩

theorem exists_decodeInto_chunks_iff (hlim : count * size.val < Capacity.limit)
    (hle : count * size.val ≤ out.length) :
    (∃ bytes, decodeInto out count size.val (cs.flatMap Chunk.bytes) = .ok bytes) ↔
      chunkTotal size.val count = cs.length := by
  constructor
  · intro haccept
    obtain ⟨bytes, hok⟩ := haccept
    by_contra hne
    rcases Nat.lt_or_gt_of_ne hne with hlt | hgt
    · obtain ⟨found, herror⟩ := decodeInto_of_length_gt hlim hle hlt
      cases hok.symm.trans herror
    · obtain ⟨needed, available, herror⟩ := decodeInto_of_length_lt hlim hle hgt
      cases hok.symm.trans herror
  · intro heq
    exact decodeInto_of_length_eq hlim hle heq.symm

end Accept

section Repeat
variable {size count m : Nat} {records : List (Record size)}

theorem word_replicate_zero (j : Fin (size / 4)) :
    Record.word (Vector.replicate size (0 : UInt8)) j = 0 := by
  apply Word.eq_of_byte
  intro b hb
  rw [Record.byte_word _ _ hb, get_eq_getElem, Vector.getElem_replicate]
  simp [Word.byte]

theorem foldedColumn_repeatLast (j : Fin (size / 4)) (m : Nat) (records : List (Record size)) :
    foldedColumn j (repeatLast (Vector.replicate size 0) m records) =
      (foldedColumn j records ++ List.replicate (m - records.length) 0).take m := by
  have hzero : Word.rotateUp 0 = 0 := by decide
  rw [foldedColumn, Record.wordColumn, repeatLast_map, repeatLast_map, word_replicate_zero, hzero,
    foldAll_repeatLast, List.length_map, List.length_map]
  rfl

theorem Cut.stores_repeatLast (h : chunkCount m = chunkCount records.length) :
    (Cut.ofRecords m records).Stores (repeatLast (Vector.replicate size 0) m records) := by
  refine ⟨repeatLast_length _ _ _, fun j => ?_⟩
  have hlen := foldedColumn_length j records
  have hm := le_mul_chunkCount m
  have hroom : (foldedColumn j records).length ≤ 32 * chunkCount m := by
    rw [hlen, h]
    exact le_mul_chunkCount records.length
  rw [foldedColumn_repeatLast, ofRecords, foldedWords_cutColumn hroom]
  exact take_append_replicate 0 (by rw [hlen]) (by omega)

theorem Cut.bytes_ofRecords (h : chunkCount m = chunkCount count)
    (records : List (Record size)) :
    (Cut.ofRecords m records).bytes = (Cut.ofRecords count records).bytes := by
  simp only [bytes, ofRecords]
  rw [h]

end Repeat

section
variable {σ : Type} {count size m size' : Nat} {source out out' stream bytes : List UInt8}

theorem decodeInto_streamBytes_of_chunkCount_eq (h : Admissible count size source)
    (hcount : 0 < count) (hm : chunkCount m = chunkCount count)
    (hdecode : decodeInto out m size (streamBytes count size source) = .ok bytes) :
    Record.Repeats size count m source bytes := by
  obtain ⟨size, rfl⟩ := h.validSize.exists_size
  obtain ⟨_, _, hlim, hle, _⟩ := of_decodeInto_eq_ok hdecode
  have hstores : (Cut.ofRecords m (Record.split size.val count source)).Stores _ :=
    Cut.stores_repeatLast (by rwa [Record.split_length])
  rw [streamBytes, ← Cut.bytes_ofRecords hm, decodeInto_of_stores hstores hlim hle] at hdecode
  cases hdecode
  exact Record.repeats_repeatLast _ hcount h.le_length _

/-- A stream does not tell its dimensions, only how many chunks it has. With dimensions of as many
chunks it is accepted as well; with those of fewer chunks there is something left at its end, and
with those of more it ends too early. An encoded stream that is accepted with another count gives
the records that there are, and copies of the last one for those that there are not. -/
theorem decodeInto_other_dimensions (h : decodeInto out count size stream = .ok bytes)
    (hsize : ValidSize size') (hlimit : out'.length < Capacity.limit)
    (hout : m * size' ≤ out'.length) :
    ((∃ bytes', decodeInto out' m size' stream = .ok bytes') ↔
      size' / 4 * ceilDiv m 32 = size / 4 * ceilDiv count 32) ∧
    (size' / 4 * ceilDiv m 32 < size / 4 * ceilDiv count 32 →
      ∃ found, decodeInto out' m size' stream = .error (.trailingData 0 found)) ∧
    (size / 4 * ceilDiv count 32 < size' / 4 * ceilDiv m 32 →
      ∃ needed available,
        decodeInto out' m size' stream = .error (.truncated needed available)) ∧
    ∀ (observed : σ) (source destination : List UInt8) (len : Nat) (s : Session σ),
      encode count size source (.start destination observed) = .ok len s →
      s.writer.destination.take len = stream → 0 < count → size' = size →
      ∀ bytes', decodeInto out' m size' stream = .ok bytes' →
        Record.Repeats size count m source bytes' := by
  obtain ⟨size, rfl, _, _, cut, _, _, rfl, _⟩ := of_decodeInto_eq_ok h
  obtain ⟨size', rfl⟩ := hsize.exists_size
  have hlim : m * size'.val < Capacity.limit := Nat.lt_of_le_of_lt hout hlimit
  have hlen : cut.toList.length = size.val / 4 * ceilDiv count 32 := cut.length_toList
  have hiff : _ ↔ size'.val / 4 * ceilDiv m 32 = cut.toList.length :=
    exists_decodeInto_chunks_iff hlim hout
  have hmore : size'.val / 4 * ceilDiv m 32 < cut.toList.length → _ :=
    decodeInto_of_length_gt hlim hout
  have hfewer : cut.toList.length < size'.val / 4 * ceilDiv m 32 → _ :=
    decodeInto_of_length_lt hlim hout
  rw [← cut.bytes_eq_flatMap, hlen] at hiff hmore hfewer
  refine ⟨hiff, hmore, hfewer, fun observed source destination len s hs hstream hcount heq bytes'
    hdecode => ?_⟩
  -- With as many words in a record, as many chunks in all are as many in a column.
  have htotal := hiff.1 ⟨bytes', hdecode⟩
  rw [heq] at htotal
  have hwords : 0 < size.val / 4 := Nat.div_pos (Nat.le_of_dvd size.pos size.four_dvd) (by decide)
  have hm : ceilDiv m 32 = ceilDiv count 32 := Nat.eq_of_mul_eq_mul_left hwords htotal
  rw [← hstream, take_of_encode_eq_ok hs, heq] at hdecode
  exact decodeInto_streamBytes_of_chunkCount_eq (of_encode_eq_ok hs).1 hcount hm hdecode

theorem decodeInto_other_dimensions_one_word :
    ∃ s, encode 1 4 [0, 0, 0, 128] (.start (List.replicate 9 5) ()) = .ok 8 s ∧
      (∃ bytes, decodeInto (List.replicate 12 3) 3 4 (s.writer.destination.take 8) = .ok bytes ∧
        Record.bytesAt 4 bytes 2 = [0, 0, 0, 128]) ∧
      (∃ found, decodeInto [3] 0 4 (s.writer.destination.take 8) =
        .error (.trailingData 0 found)) ∧
      ∃ needed available, decodeInto (List.replicate 8 3) 1 8 (s.writer.destination.take 8) =
        .error (.truncated needed available) := by
  have hadmissible : Admissible 1 4 [0, 0, 0, 128] := ⟨by decide, by decide, by decide⟩
  have hstream : streamBytes 1 4 [0, 0, 0, 128] = [1, 0, 0, 0, 1, 0, 0, 0] := by decide +kernel
  have hlen : (streamBytes 1 4 [0, 0, 0, 128]).length = 8 := by
    rw [hstream]
    rfl
  have hle : (streamBytes 1 4 [0, 0, 0, 128]).length ≤ (List.replicate 9 (5 : UInt8)).length := by
    rw [hlen]
    decide
  obtain ⟨s, hs, _⟩ := (encode_emits hadmissible).start_of_le () hle
  have htake := take_of_encode_eq_ok hs
  rw [hlen] at hs htake
  have hdecode : decodeInto [3, 3, 3, 3] 1 4 (s.writer.destination.take 8) =
      .ok [0, 0, 0, 128] := by
    rw [htake, hstream]
    with_unfolding_all rfl
  have hthree : 3 * 4 ≤ (List.replicate 12 (3 : UInt8)).length := by decide
  have hnone : 0 * 4 ≤ [(3 : UInt8)].length := by decide
  have hlonger : 1 * 8 ≤ (List.replicate 8 (3 : UInt8)).length := by decide
  obtain ⟨hiff, _, _, hrepeats⟩ :=
    decodeInto_other_dimensions (σ := Unit) hdecode (by decide) (by decide) hthree
  obtain ⟨bytes, hbytes⟩ := hiff.2 (by decide)
  have hcopies := (hrepeats () _ _ 8 s hs rfl (by decide) rfl bytes hbytes).copies 2
    (by decide) (by decide)
  obtain ⟨_, htrailing, _⟩ :=
    decodeInto_other_dimensions (σ := Unit) hdecode (by decide) (by decide) hnone
  obtain ⟨_, _, htruncated, _⟩ :=
    decodeInto_other_dimensions (σ := Unit) hdecode (by decide) (by decide) hlonger
  exact ⟨s, hs, ⟨bytes, hbytes, hcopies⟩, htrailing (by decide), htruncated (by decide)⟩

end
end VertexPack.PlaneStream
