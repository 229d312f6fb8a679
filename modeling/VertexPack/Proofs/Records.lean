import VertexPack.Bytes
import VertexPack.Proofs.Chunks
import Mathlib.Data.List.GetD

/-! Records and their columns, and the bytes that a record was cut from. -/
namespace VertexPack.Record
variable {size n count : Nat} {source : List UInt8}

@[simp] theorem column_length (k : Fin size) (records : List (Record size)) :
    (column k records).length = records.length := List.length_map _

theorem column_append (k : Fin size) (records more : List (Record size)) :
    column k (records ++ more) = column k records ++ column k more := List.map_append

theorem headD_column (k : Fin size) (p : Record size) (records : List (Record size)) :
    (column k records).headD (p.get k) = (records.headD p).get k := by
  cases records with
  | nil => rfl
  | cons r rs => rfl

theorem getLastD_column (k : Fin size) (p : Record size) (records : List (Record size)) :
    (column k records).getLastD (p.get k) = (records.getLastD p).get k := by
  rw [column, List.getLastD_map]

theorem column_ofColumns (columns : Vector (Vector UInt8 n) size) (k : Fin size) :
    column k (ofColumns columns) = (columns.get k).toList := by
  apply List.ext_getElem
  · simp [ofColumns]
  · intro i hi hi'
    simp [column, ofColumns, get_eq_getElem]

theorem ofColumns_column (records : List (Record size)) :
    ofColumns (Vector.ofFn fun k : Fin size => (⟨(column k records).toArray, by simp⟩ :
      Vector UInt8 records.length)) = records := by
  apply List.ext_getElem
  · simp [ofColumns]
  · intro i hi hi'
    apply Vector.ext
    intro k hk
    simp [ofColumns, column, get_eq_getElem]

@[simp] theorem split_length : (split size count source).length = count := by
  rw [split, List.length_map, pieces_length]

theorem split_take : split size count (source.take (count * size)) = split size count source := by
  rw [split, pieces_take, split]

theorem toList_ofList {bs : List UInt8} (h : bs.length = size) : (ofList size bs).toList = bs := by
  apply List.ext_getElem
  · rw [Vector.length_toList, h]
  · intro i hi hi'
    simp [ofList, hi']

theorem map_toList_split (h : count * size ≤ source.length) :
    (split size count source).map Vector.toList = pieces size count source := by
  have hpiece (b : List UInt8) (hb : b ∈ pieces size count source) :
      (ofList size b).toList = b := by
    apply toList_ofList
    obtain ⟨i, hi, rfl⟩ := List.mem_iff_getElem.1 hb
    have hcount : i < count := by simpa using hi
    have hnext : size * i + size ≤ count * size := by
      rw [← Nat.mul_succ, Nat.mul_comm count]
      exact Nat.mul_le_mul_left size hcount
    rw [getElem_pieces, List.length_take, List.length_drop]
    omega
  rw [split, List.map_map]
  exact (List.map_congr_left hpiece).trans (List.map_id _)

theorem flatten_split (h : count * size ≤ source.length) :
    flatten (split size count source) = source.take (count * size) := by
  rw [flatten, List.flatMap_def, map_toList_split h, pieces_flatten]

theorem flatten_split_self (h : source.length = count * size) :
    flatten (split size count source) = source := by
  rw [flatten_split (Nat.le_of_eq h.symm), ← h, List.take_length]

theorem split_ne_nil (source : List UInt8) (h : 0 < count) : split size count source ≠ [] := by
  rw [← List.length_pos_iff, split_length]
  exact h

theorem ofList_toList (r : Record size) : ofList size r.toList = r := by
  apply Vector.ext
  intro k hk
  simp [ofList]

theorem flatten_length (records : List (Record size)) :
    (flatten records).length = records.length * size := by
  simp [flatten, List.length_flatMap]

theorem flatten_append (records more : List (Record size)) :
    flatten (records ++ more) = flatten records ++ flatten more := List.flatMap_append

theorem flatten_last (p : Record size) {records : List (Record size)} (h : records ≠ []) :
    size ≤ (flatten records).length ∧
      (flatten records).drop ((flatten records).length - size) =
        (records.getLastD p).toList := by
  obtain ⟨front, last, rfl⟩ := List.eq_nil_or_concat records |>.resolve_left h
  have hflat : flatten (front ++ [last]) = flatten front ++ last.toList := by simp [flatten]
  rw [List.concat_eq_append, hflat, List.length_append, Vector.length_toList, Nat.add_sub_cancel,
    List.drop_left, List.getLastD_concat]
  exact ⟨Nat.le_add_left _ _, rfl⟩

theorem split_flatten {records : List (Record size)} (h : records.length = count) :
    split size count (flatten records) = records := by
  subst h
  induction records with
  | nil => rfl
  | cons r rs ih =>
    rw [split] at ih
    rw [split, flatten, List.flatMap_cons, List.length_cons, pieces,
      List.take_left' r.length_toList, List.drop_left' r.length_toList, List.map_cons,
      ofList_toList]
    exact congrArg (r :: ·) ih

def byteAt (size : Nat) (source : List UInt8) (i k : Nat) : UInt8 := source.getD (i * size + k) 0

theorem index_div {i k : Nat} (hk : k < size) : (i * size + k) / size = i := by
  rw [Nat.mul_comm, Nat.mul_add_div (Nat.zero_lt_of_lt hk), Nat.div_eq_of_lt hk, Nat.add_zero]

theorem byteAt_map_range (f : Nat → UInt8) {i k : Nat} (hi : i < count) (hk : k < size) :
    byteAt size ((List.range (count * size)).map f) i k = f (i * size + k) := by
  have hnext := Nat.mul_le_mul_right size (Nat.succ_le_of_lt hi)
  rw [Nat.succ_mul] at hnext
  have ht : i * size + k < ((List.range (count * size)).map f).length := by
    rw [List.length_map, List.length_range]
    omega
  rw [byteAt, List.getD_eq_getElem _ _ ht, List.getElem_map, List.getElem_range]

theorem get_split {i : Nat} (hi : i < (split size count source).length) (k : Fin size) :
    (split size count source)[i].get k = byteAt size source i k := by
  simp [split, ofList, byteAt, get_eq_getElem, Nat.mul_comm]

theorem getD_column_split (k : Fin size) {i : Nat} (hi : i < count) :
    (column k (split size count source)).getD i 0 = byteAt size source i k := by
  have hlen : i < (column k (split size count source)).length := by
    rwa [column_length, split_length]
  rw [List.getD_eq_getElem _ _ hlen]
  simp [column, split, ofList, byteAt, get_eq_getElem, Nat.mul_comm]

def bytesColumn (size count : Nat) (source : List UInt8) (k : Nat) : List UInt8 :=
  (List.range count).map fun i => byteAt size source i k

theorem column_split (source : List UInt8) (k : Fin size) :
    column k (split size count source) = bytesColumn size count source k := by
  apply List.ext_getElem
  · simp [bytesColumn]
  · intro i hi hi'
    have hcount : i < count := by simpa using hi
    rw [← List.getD_eq_getElem _ 0 hi, getD_column_split k hcount]
    simp [bytesColumn]

theorem byteAt_flatten_append (records : List (Record size)) (rest : List UInt8) (k : Fin size)
    {i : Nat} (hi : i < records.length) :
    byteAt size (flatten records ++ rest) i k = (column k records).getD i 0 := by
  have hsplit : split size records.length (flatten records ++ rest) = records := by
    rw [← split_take, List.take_left' (flatten_length records), split_flatten rfl]
  rw [← getD_column_split k hi, hsplit]

end VertexPack.Record
