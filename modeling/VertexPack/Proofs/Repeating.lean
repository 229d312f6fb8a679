import VertexPack.Proofs.Records
import VertexPack.Proofs.Steps

/-! The bytes of the records of a source, one record at a time, and bytes that hold these records
with the last one repeated. -/
namespace VertexPack.Record
variable {size count m i : Nat} {records : List (Record size)} {source rest : List UInt8}

theorem flatten_take_append (k : Nat) (records : List (Record size)) :
    flatten records = flatten (records.take k) ++ flatten (records.drop k) := by
  rw [← flatten_append, List.take_append_drop]

theorem flatten_take (k : Nat) (records : List (Record size)) :
    flatten (records.take k) = (flatten records).take (k * size) := by
  by_cases h : k ≤ records.length
  · have hlen : (flatten (records.take k)).length = k * size := by
      rw [flatten_length, List.length_take_of_le h]
    rw [flatten_take_append k records, List.take_left' hlen]
  · have hle : records.length ≤ k := Nat.le_of_not_le h
    rw [List.take_of_length_le hle, List.take_of_length_le]
    rw [flatten_length]
    exact Nat.mul_le_mul_right size hle

theorem flatten_drop (k : Nat) (records : List (Record size)) :
    flatten (records.drop k) = (flatten records).drop (k * size) := by
  have hsplit := flatten_take_append k records
  rw [flatten_take] at hsplit
  exact List.append_cancel_left (hsplit.symm.trans (List.take_append_drop _ _).symm)

theorem take_split (h : m ≤ count) :
    (split size count source).take m = split size m source := by
  rw [split, split, pieces_eq_map, pieces_eq_map, ← List.map_take, ← List.map_take,
    List.take_range, Nat.min_eq_left h]

theorem flatten_drop_split (h : count * size ≤ source.length) (m : Nat) :
    flatten ((split size count source).drop m) =
      (source.drop (m * size)).take ((count - m) * size) := by
  rw [flatten_drop, flatten_split h, List.drop_take, Nat.mul_sub_right_distrib]

theorem chunks_flatten_records {B : Nat} (hB : 0 < B) (hsize : 0 < size)
    (records : List (Record size)) :
    chunks (B * size) (flatten records) = (chunks B records).map flatten := by
  induction records using chunks_induction hB with
  | nil => simp [chunks_nil hB, flatten, chunks_nil (Nat.mul_pos hB hsize)]
  | step records hne ih =>
    have hbytes : flatten records ≠ [] := by
      rw [← List.length_pos_iff, flatten_length]
      exact Nat.mul_pos (List.length_pos_iff.2 hne) hsize
    rw [chunks_of_ne_nil (Nat.mul_pos hB hsize) hbytes, chunks_of_ne_nil hB hne, List.map_cons,
      ← flatten_take, ← flatten_drop, ih]

def bytesAt (size : Nat) (source : List UInt8) (i : Nat) : List UInt8 :=
  (source.drop (i * size)).take size

theorem bytesAt_flatten_append (hi : i < records.length) (rest : List UInt8) :
    bytesAt size (flatten records ++ rest) i = records[i].toList := by
  have hle : i * size ≤ (flatten records).length := by
    rw [flatten_length]
    exact Nat.mul_le_mul_right size (Nat.le_of_lt hi)
  rw [bytesAt, List.drop_append_of_le_length hle, ← flatten_drop, List.drop_eq_getElem_cons hi,
    flatten, List.flatMap_cons, List.append_assoc, List.take_left' records[i].length_toList]

theorem bytesAt_split (hi : i < (split size count source).length)
    (h : count * size ≤ source.length) :
    bytesAt size source i = (split size count source)[i].toList := by
  rw [← bytesAt_flatten_append hi (source.drop (count * size)), flatten_split h,
    List.take_append_drop]

theorem bytesAt_last (p : Record size) (hcount : 0 < count) (h : count * size ≤ source.length) :
    bytesAt size source (count - 1) = ((split size count source).getLastD p).toList := by
  have hlast : count - 1 < (split size count source).length := by
    rw [split_length]
    exact Nat.sub_one_lt_of_lt hcount
  rw [bytesAt_split hlast h, List.getLastD_eq_getLast?, List.getLast?_eq_getElem?]
  simp [List.getElem?_eq_getElem hlast]

theorem column_repeatLast (k : Fin size) (p : Record size) (m : Nat)
    (records : List (Record size)) :
    column k (repeatLast p m records) = repeatLast (p.get k) m (column k records) :=
  repeatLast_map (fun r : Record size => r.get k) p m records

/-- `bytes` begins with the first `m` of the `count` records of a source; where these are too few,
copies of the last one stand in their place. -/
structure Repeats (size count m : Nat) (source bytes : List UInt8) : Prop where
  front : bytes.take (min m count * size) = source.take (min m count * size)
  copies : ∀ i, count ≤ i → i < m → bytesAt size bytes i = bytesAt size source (count - 1)

theorem repeats_repeatLast (p : Record size) (hcount : 0 < count)
    (h : count * size ≤ source.length) (rest : List UInt8) :
    Repeats size count m source
      (flatten (repeatLast p m (split size count source)) ++ rest) where
  front := by
    have hm : min m count * size ≤ m * size := Nat.mul_le_mul_right size (Nat.min_le_left m count)
    have hn : min m count * size ≤ count * size :=
      Nat.mul_le_mul_right size (Nat.min_le_right m count)
    rw [List.take_append_of_le_length (by rwa [flatten_length, repeatLast_length]),
      ← flatten_take, take_repeatLast _ (Nat.min_le_left m count) (by rw [split_length]; omega),
      flatten_take, flatten_split h, List.take_take, Nat.min_eq_left hn]
  copies i hle hi := by
    rw [bytesAt_flatten_append (by rwa [repeatLast_length]),
      getElem_repeatLast _ (by rwa [split_length]), bytesAt_last p hcount h]

end VertexPack.Record
