import VertexPack.Proofs.Blocks
import VertexPack.Proofs.StreamBytes

/-! Records to which one record is added byte by byte. A delta is a difference, so it stays as it
is where a value and the one before it are shifted alike; and so do the blocks. -/
namespace VertexPack

theorem Delta.encode_shift (p d : UInt8) (vs : List UInt8) :
    encode (p + d) (vs.map (· + d)) = encode p vs := by
  induction vs generalizing p with
  | nil => rfl
  | cons v vs ih =>
    have hstep : v + d - (p + d) = v - p := by grind
    rw [List.map_cons, encode, encode, ih, hstep]

namespace Record
variable {size count : Nat}

def shift (d r : Record size) : Record size := Vector.ofFn fun k => r.get k + d.get k

def difference (r' r : Record size) : Record size := Vector.ofFn fun k => r'.get k - r.get k

theorem get_shift (d r : Record size) (k : Fin size) : (shift d r).get k = r.get k + d.get k := by
  rw [shift, get_ofFn]

theorem get_difference (r' r : Record size) (k : Fin size) :
    (difference r' r).get k = r'.get k - r.get k := by
  rw [difference, get_ofFn]

theorem eq_of_get {r r' : Record size} (h : ∀ k, r.get k = r'.get k) : r = r' :=
  Vector.ext fun k hk => h ⟨k, hk⟩

theorem shift_difference (r' r : Record size) : shift (difference r' r) r = r' := by
  apply eq_of_get
  intro k
  rw [get_shift, get_difference, UInt8.add_comm, UInt8.sub_add_cancel]

theorem shift_of_get_eq_zero {d : Record size} (h : ∀ k, d.get k = 0) (r : Record size) :
    shift d r = r := by
  apply eq_of_get
  intro k
  rw [get_shift, h, UInt8.add_zero]

theorem split_eq_map_shift {d : Record size} {source source' : List UInt8}
    (h : ∀ i < count, ∀ k : Fin size, byteAt size source' i k = byteAt size source i k + d.get k) :
    split size count source' = (split size count source).map (shift d) := by
  apply List.ext_getElem
  · rw [List.length_map, split_length, split_length]
  · intro i hi hi'
    have hcount : i < count := by rwa [split_length] at hi
    apply eq_of_get
    intro k
    rw [List.getElem_map, get_shift, get_split, get_split, h i hcount k]

theorem column_map_shift (d : Record size) (records : List (Record size)) (k : Fin size) :
    column k (records.map (shift d)) = (column k records).map (· + d.get k) := by
  rw [column, column, List.map_map, List.map_map]
  congr 1
  funext r
  exact get_shift d r k

theorem encode_column_shift (d p : Record size) (records : List (Record size)) (k : Fin size) :
    Delta.encode ((shift d p).get k) (column k (records.map (shift d))) =
      Delta.encode (p.get k) (column k records) := by
  rw [column_map_shift, get_shift, Delta.encode_shift]

theorem byteAt_flatten_shift (d : Record size) {records : List (Record size)} (rest : List UInt8)
    (k : Fin size) {i : Nat} (hi : i < records.length) :
    byteAt size (flatten (records.map (shift d)) ++ rest) i k =
      byteAt size (flatten records ++ rest) i k + d.get k := by
  have hcolumn : i < (column k records).length := (column_length k records).symm ▸ hi
  have hshift : i < ((column k records).map (· + d.get k)).length := by rwa [List.length_map]
  rw [byteAt_flatten_append _ _ _ hi, byteAt_flatten_append _ _ _ (by rwa [List.length_map]),
    column_map_shift, List.getD_eq_getElem _ _ hcolumn, List.getD_eq_getElem _ _ hshift,
    List.getElem_map]

end Record

namespace DeltaStream
open Record
variable {size count : Nat}

/-- Blocks that are predicted from a shifted record stand for shifted records. -/
theorem Blocks.Stores.shift {blocks : Blocks size count} {p : Record size}
    {records : List (Record size)} (h : blocks.Stores p records) (d : Record size) :
    blocks.Stores (Record.shift d p) (records.map (Record.shift d)) := by
  refine ⟨by rw [List.length_map, h.1], fun k => ?_⟩
  rw [encode_column_shift, h.2]

theorem Block.bytes_shift (d p : Record size) (records : List (Record size)) :
    Block.bytes (shift d p) (records.map (shift d)) = Block.bytes p records := by
  simp only [Block.bytes, Channel.columnBytes, encode_column_shift]

theorem blocksBytes_shift (d p : Record size) (blocks : List (List (Record size))) :
    blocksBytes (shift d p) (blocks.map (List.map (shift d))) = blocksBytes p blocks := by
  induction blocks generalizing p with
  | nil => rfl
  | cons b bs ih =>
    rw [List.map_cons, blocksBytes, blocksBytes, Block.bytes_shift, List.getLastD_map, ih]

end DeltaStream
end VertexPack
