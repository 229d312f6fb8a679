import VertexPack.Proofs.Admission
import VertexPack.Proofs.Records
import VertexPack.Proofs.Splitting
import VertexPack.Proofs.StreamBytes
import Mathlib.Algebra.BigOperators.Fin

/-! The length of a stream as a sum over its source. Blocks are whole groups but for the
last, so the groups of a column do not depend on where the blocks end; only the selector
headers do. -/
namespace VertexPack

theorem Channel.columnBytes_length (p : UInt8) (column : List UInt8) :
    (columnBytes p column).length =
      Width.headerSize (Layout.groupCount column.length) +
        Group.columnCost (Delta.encode p column) := by
  rw [columnBytes, bytes_length, Group.split_length, Delta.encode_length]
  rfl

/-- An entry of the deltas of a column is the folded step from the record before; the first one is
from `p`, and there is none behind the last record. -/
theorem Record.getD_encode_column_split {size count : Nat} (source : List UInt8) (p : UInt8)
    (k : Fin size) (i : Nat) :
    (Delta.encode p (column k (split size count source))).getD i 0 =
      if i < count then
        Delta.zigzag (byteAt size source i k - if i = 0 then p else byteAt size source (i - 1) k)
      else 0 := by
  split
  · rename_i hi
    rw [List.getD_eq_getElem _ _ (by simpa using hi), Delta.getElem_encode,
      getD_column_split k hi]
    cases i with
    | zero => rw [if_pos rfl, if_pos rfl]
    | succ i =>
      rw [if_neg (Nat.succ_ne_zero i), if_neg (Nat.succ_ne_zero i),
        getD_column_split k (by omega)]
  · rename_i hi
    rw [List.getD_eq_default]
    simpa using hi

namespace DeltaStream

def headerBytes (size count : Nat) : Nat := size * Width.headerSize (Layout.groupCount count)

section Blocks
variable {size B : Nat}

theorem Block.bytes_length (p : Record size) (records : List (Record size)) :
    (Block.bytes p records).length = headerBytes size records.length +
      ∑ k : Fin size, Group.columnCost (Delta.encode (p.get k) (Record.column k records)) := by
  rw [Block.bytes, List.length_flatMap]
  simp only [Channel.columnBytes_length, Record.column_length]
  rw [← Fin.sum_univ_def, Finset.sum_add_distrib, headerBytes]
  simp

theorem columnCost_take_drop (hdvd : 16 ∣ B) (p : Record size) (records : List (Record size))
    (k : Fin size) :
    Group.columnCost (Delta.encode (p.get k) (Record.column k records)) =
      Group.columnCost (Delta.encode (p.get k) (Record.column k (records.take B))) +
      Group.columnCost (Delta.encode (((records.take B).getLastD p).get k)
        (Record.column k (records.drop B))) := by
  have hcolumn := Record.column_append k (records.take B) (records.drop B)
  rw [List.take_append_drop] at hcolumn
  rw [hcolumn, Delta.encode_append, Record.getLastD_column]
  -- A first block that is cut off is whole groups; one that is not has nothing behind it.
  by_cases hle : B ≤ records.length
  · have hlen : 16 ∣ (Delta.encode (p.get k) (Record.column k (records.take B))).length := by
      rwa [Delta.encode_length, Record.column_length, List.length_take_of_le hle]
    exact Group.columnCost_append hlen
  · have hdrop : records.drop B = [] := List.drop_of_length_le (by omega)
    rw [hdrop]
    simp only [Record.column, List.map_nil, Delta.encode, List.append_nil, Group.columnCost_nil,
      Nat.add_zero]

theorem blocksBytes_length (hB : 0 < B) (hdvd : 16 ∣ B) (p : Record size)
    (records : List (Record size)) :
    (blocksBytes p (chunks B records)).length =
      ((chunks B records).map fun b => headerBytes size b.length).sum +
        ∑ k : Fin size, Group.columnCost (Delta.encode (p.get k) (Record.column k records)) := by
  induction records using chunks_induction hB generalizing p with
  | nil => simp [chunks_nil hB, blocksBytes, Record.column, Delta.encode, Group.columnCost_nil]
  | step records hne ih =>
    have hcolumns := Finset.sum_congr (rfl : Finset.univ = Finset.univ) fun k _ =>
      columnCost_take_drop hdvd p records k
    rw [chunks_of_ne_nil hB hne, blocksBytes, List.length_append, Block.bytes_length, ih,
      List.map_cons, List.sum_cons, hcolumns, Finset.sum_add_distrib]
    omega

theorem headerBytes_sum (records : List (Record size)) :
    ((chunks B records).map fun b => headerBytes size b.length).sum =
      ∑ b ∈ Finset.range (ceilDiv records.length B),
        headerBytes size (min B (records.length - B * b)) := by
  rw [chunks, pieces_eq_map, List.map_map, ← List.sum_toFinset _ List.nodup_range,
    List.toFinset_range]
  simp only [Function.comp_apply, List.length_take, List.length_drop]

end Blocks

/-- The folded step from the record before record `i`, where the first record is its own
predecessor; there is none behind the last record. -/
def deltaAt (count size : Nat) (source : List UInt8) (k i : Nat) : UInt8 :=
  if i < count then
    Delta.zigzag (Record.byteAt size source i k - Record.byteAt size source (i - 1) k)
  else 0

def groupAt (count size : Nat) (source : List UInt8) (k j : Nat) : Group :=
  Vector.ofFn fun i : Fin 16 => deltaAt count size source k (16 * j + i)

/-- The length of a stream: the format byte, the tail, a selector header for every channel
of every block, and the groups. -/
def streamLength (count size : Nat) (source : List UInt8) : Nat :=
  1 + Layout.tailSize size +
  (∑ b ∈ Finset.range (ceilDiv count (Layout.blockLength size)),
    headerBytes size (min (Layout.blockLength size) (count - Layout.blockLength size * b))) +
  ∑ k ∈ Finset.range size, ∑ j ∈ Finset.range (Layout.groupCount count),
    (groupAt count size source k j).cost

section Source
variable {count : Nat} {size : VertexSize} {source : List UInt8}

theorem get_firstRecord_split (hcount : 0 < count) (k : Fin size.val) :
    (firstRecord (Record.split size.val count source)).get k =
      Record.byteAt size.val source 0 k := by
  obtain ⟨r, rs, hr⟩ := List.exists_cons_of_length_pos
    (l := Record.split size.val count source) (by rwa [Record.split_length])
  rw [← Record.getD_column_split k hcount, firstRecord, hr, List.headD_cons, Record.column,
    List.map_cons, List.getD_cons_zero]

theorem getD_encode_column (k : Fin size.val) (t : Nat) :
    (Delta.encode ((firstRecord (Record.split size.val count source)).get k)
      (Record.column k (Record.split size.val count source))).getD t 0 =
      deltaAt count size.val source k t := by
  rw [deltaAt, Record.getD_encode_column_split]
  split
  · rename_i ht
    cases t with
    | zero => rw [if_pos rfl, get_firstRecord_split ht]
    | succ t => rw [if_neg (Nat.succ_ne_zero t)]
  · rfl

theorem columnCost_split (k : Fin size.val) :
    Group.columnCost (Delta.encode ((firstRecord (Record.split size.val count source)).get k)
      (Record.column k (Record.split size.val count source))) =
      ∑ j ∈ Finset.range (Layout.groupCount count), (groupAt count size.val source k j).cost := by
  rw [Group.columnCost_eq_sum, Delta.encode_length, Record.column_length, Record.split_length]
  simp only [getD_encode_column, groupAt]

theorem bytes_ofSource_length (format : FormatByte) :
    (Job.ofSource format size count source).bytes.length = streamLength count size.val source := by
  have hblocks := blocksBytes_length (Layout.blockLength_pos size)
    (Layout.groupSize_dvd_blockLength size.val) (firstRecord (Record.split size.val count source))
    (Record.split size.val count source)
  rw [headerBytes_sum, Record.split_length, Finset.sum_congr rfl fun k _ => columnCost_split k,
    ← Finset.sum_range fun k => ∑ j ∈ Finset.range (Layout.groupCount count),
      (groupAt count size.val source k j).cost] at hblocks
  have htail := tailBytes_length (firstRecord (Record.split size.val count source)).toList
  rw [Vector.length_toList] at htail
  change (bodyBytes (Record.split size.val count source)).length + 1 = _
  rw [bodyBytes, List.length_append, hblocks, htail, streamLength]
  omega

end Source
end DeltaStream
end VertexPack
