import VertexPack.Proofs.PlaneBytes

/-! The chunks that records are written as hold these records. What was encoded is read back. -/
namespace VertexPack.PlaneStream
open Plane

theorem Chunk.words_ofWords (ws : List UInt32) (c : Fin 32) :
    (ofWords ws).words.get c = ws.getD c 0 := by
  rw [words, ofWords, ofPlanes, transpose_transpose]
  simp [ofList, get_eq_getElem]

theorem words_cutColumn {m : Nat} (folded : List UInt32) (i : Fin m) (c : Fin 32) :
    (cutColumn m folded i).words.get c = folded.getD (32 * i + c) 0 := by
  rw [cutColumn, Chunk.words_ofWords, chunkLength]
  simp

theorem foldedWords_cutColumn {k : Nat} {folded : List UInt32} (h : folded.length ≤ 32 * k) :
    foldedWords (cutColumn k folded) =
      folded ++ List.replicate (32 * k - folded.length) 0 := by
  have hlen : (List.ofFn fun i => (cutColumn k folded i).words).length = k := List.length_ofFn
  rw [← hlen] at h
  have hpadded := flatMap_toList_eq h fun i hi c => by
    rw [List.getElem_ofFn]
    exact words_cutColumn folded _ c
  rwa [hlen] at hpadded

section
variable {count size : Nat} {records : List (Record size)}

theorem foldedColumn_length (j : Fin (size / 4)) (records : List (Record size)) :
    (foldedColumn j records).length = records.length := by
  rw [foldedColumn, foldAll_length, List.length_map, Record.wordColumn_length]

theorem Cut.stores_ofRecords (h : records.length = count) :
    (Cut.ofRecords count records).Stores records := by
  refine ⟨h, fun j => ?_⟩
  have hlen : (foldedColumn j records).length = count := (foldedColumn_length j records).trans h
  have hroom : (foldedColumn j records).length ≤ 32 * chunkCount count := by
    rw [hlen]
    exact le_mul_chunkCount count
  rw [ofRecords, foldedWords_cutColumn hroom, List.take_left' hlen]

end

section
variable {σ : Type} {observed : σ} {count size len : Nat} {source destination out : List UInt8}
  {s : Session σ}

theorem decode_streamBytes {size : VertexSize} (h : count * size.val ≤ source.length)
    (hlim : count * size.val < Capacity.limit) :
    decode count size.val (streamBytes count size.val source) =
      .ok (source.take (count * size.val)) := by
  have hstores : (Cut.ofRecords count (Record.split size.val count source)).Stores _ :=
    Cut.stores_ofRecords Record.split_length
  rw [streamBytes, decode_of_stores hstores hlim, Record.flatten_split h]

/-- What was encoded is decoded again, and nothing behind the records is touched. -/
theorem decode_after_encode
    (h : encode count size source (.start destination observed) = .ok len s)
    (hout : count * size ≤ out.length) :
    decodeInto out count size (s.writer.destination.take len) =
      .ok (source.take (count * size) ++ out.drop (count * size)) := by
  obtain ⟨hadmissible, _⟩ := of_encode_eq_ok h
  rw [take_of_encode_eq_ok h]
  obtain ⟨size, rfl⟩ := hadmissible.validSize.exists_size
  have hstores : (Cut.ofRecords count (Record.split size.val count source)).Stores _ :=
    Cut.stores_ofRecords Record.split_length
  rw [streamBytes, decodeInto_of_stores hstores hadmissible.lt_limit hout,
    Record.flatten_split hadmissible.le_length]

theorem decode_after_encode_two_records :
    ∃ s, encode 2 4 [9, 0, 0, 128, 7, 0, 0, 0, 1] (.start (List.replicate 24 5) ()) = .ok 24 s ∧
      decodeInto (List.replicate 10 3) 2 4 (s.writer.destination.take 24) =
        .ok [9, 0, 0, 128, 7, 0, 0, 0, 3, 3] := by
  have hadmissible : Admissible 2 4 [9, 0, 0, 128, 7, 0, 0, 0, 1] :=
    ⟨by decide, by decide, by decide⟩
  have hlen : (streamBytes 2 4 [9, 0, 0, 128, 7, 0, 0, 0, 1]).length = 24 := by decide +kernel
  have hle : (streamBytes 2 4 [9, 0, 0, 128, 7, 0, 0, 0, 1]).length ≤
      (List.replicate 24 (5 : UInt8)).length := Nat.le_of_eq hlen
  obtain ⟨s, hs, _⟩ := (encode_emits hadmissible).start_of_le () hle
  rw [hlen] at hs
  have hout : 2 * 4 ≤ (List.replicate 10 (3 : UInt8)).length := by decide
  exact ⟨s, hs, decode_after_encode hs hout⟩

end
end VertexPack.PlaneStream
