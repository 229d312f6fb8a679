import VertexPack.Group
import VertexPack.Delta
import VertexPack.Proofs.Chunks
import VertexPack.Proofs.Cost
import VertexPack.Proofs.Steps
import Mathlib.Algebra.BigOperators.Fin
import Mathlib.Algebra.Order.BigOperators.Group.List
import Mathlib.Algebra.Order.Group.Nat
import Mathlib.Data.List.GetD

/-! A column of deltas as groups: which delta an entry of a group is, and what becomes of
the groups when the column is put together from two. -/
namespace VertexPack

namespace Delta

theorem encode_eq_stepsFrom (p : UInt8) (vs : List UInt8) :
    encode p vs = stepsFrom (fun p v => zigzag (v - p)) p vs := by
  induction vs generalizing p with
  | nil => rfl
  | cons v vs ih => simp [encode, stepsFrom, ih]

theorem getElem_encode {p : UInt8} {vs : List UInt8} {t : Nat} (ht : t < (encode p vs).length) :
    (encode p vs)[t] = zigzag (vs.getD t 0 - if t = 0 then p else vs.getD (t - 1) 0) := by
  simp only [encode_eq_stepsFrom, getElem_stepsFrom (0 : UInt8)]

theorem encode_append (p : UInt8) (us vs : List UInt8) :
    encode p (us ++ vs) = encode p us ++ encode (us.getLastD p) vs := by
  simp only [encode_eq_stepsFrom, stepsFrom_append]

theorem encode_take (p : UInt8) (m : Nat) (vs : List UInt8) :
    encode p (vs.take m) = (encode p vs).take m := by
  simp only [encode_eq_stepsFrom, stepsFrom_take]

theorem encode_drop (p : UInt8) (m : Nat) (vs : List UInt8) :
    encode ((vs.take m).getLastD p) (vs.drop m) = (encode p vs).drop m := by
  simp only [encode_eq_stepsFrom, stepsFrom_drop]

theorem encode_repeatLast (p : UInt8) (m : Nat) (vs : List UInt8) :
    encode p (repeatLast p m vs) = (encode p vs ++ List.replicate (m - vs.length) 0).take m := by
  have hstay (v : UInt8) : zigzag (v - v) = 0 := by simp [zigzag]
  simp only [encode_eq_stepsFrom, stepsFrom_repeatLast (f := fun p v => zigzag (v - p)) hstay]

end Delta

namespace Group

theorem split_length (ds : List UInt8) : (split ds).length = Layout.groupCount ds.length := by
  rw [split, List.length_map, chunks_length, Layout.groupCount]

theorem getElem_split {ds : List UInt8} {j : Nat} (hj : j < (split ds).length) (i : Fin 16) :
    (split ds)[j].get i = ds.getD (16 * j + i) 0 := by
  have hgroup : (split ds)[j] = ofList ((ds.drop (16 * j)).take 16) := by
    simp only [split, List.getElem_map, getElem_chunks, Layout.groupSize]
  rw [hgroup, ofList, get_eq_getElem]
  simp

theorem take_flatMap_split (ds : List UInt8) :
    ((split ds).flatMap Vector.toList).take ds.length = ds := by
  refine take_flatMap_toList (d := 0) ?_ fun j hj i => getElem_split hj i
  have h := le_ceilDiv_mul (a := ds.length) (n := 16) (by decide)
  rw [split_length, Layout.groupCount, Layout.groupSize]
  omega

theorem split_append {xs ys : List UInt8} (h : 16 ∣ xs.length) :
    split (xs ++ ys) = split xs ++ split ys := by
  rw [split, chunks_append (n := Layout.groupSize) (by decide) h, List.map_append]
  rfl

def columnCost (ds : List UInt8) : Nat := ((split ds).map cost).sum

theorem split_eq_map (ds : List UInt8) :
    split ds = (List.range (Layout.groupCount ds.length)).map fun j =>
      (Vector.ofFn fun i : Fin 16 => ds.getD (16 * j + i) 0 : Group) := by
  apply List.ext_getElem
  · rw [split_length, List.length_map, List.length_range]
  · intro j hj hj'
    apply Vector.ext
    intro i hi
    have hentry := getElem_split hj ⟨i, hi⟩
    rw [get_eq_getElem] at hentry
    rw [hentry, List.getElem_map, List.getElem_range, Vector.getElem_ofFn]

theorem columnCost_eq_sum (ds : List UInt8) :
    columnCost ds = ∑ j ∈ Finset.range (Layout.groupCount ds.length),
      cost (Vector.ofFn fun i : Fin 16 => ds.getD (16 * j + i) 0) := by
  rw [columnCost, split_eq_map, List.map_map, ← List.sum_toFinset _ List.nodup_range,
    List.toFinset_range]
  simp only [Function.comp_apply]

theorem columnCost_nil : columnCost [] = 0 := by
  rw [columnCost, split, chunks_nil (by decide)]
  rfl

theorem columnCost_append {xs ys : List UInt8} (h : 16 ∣ xs.length) :
    columnCost (xs ++ ys) = columnCost xs + columnCost ys := by
  rw [columnCost, split_append h, List.map_append, List.sum_append]
  rfl

/-- Smaller deltas cost no more, whatever stands behind the end of the column. -/
theorem columnCost_le {ds : List UInt8} {groups : List Group}
    (hlen : groups.length = Layout.groupCount ds.length)
    (hle : ∀ t, t < ds.length → ds.getD t 0 ≤ (groups.flatMap Vector.toList).getD t 0) :
    columnCost ds ≤ (groups.map cost).sum := by
  apply List.Forall₂.sum_le_sum
  rw [List.forall₂_map_left_iff, List.forall₂_map_right_iff, List.forall₂_iff_get]
  refine ⟨by rw [split_length, hlen], fun j hj hj' => cost_mono fun i => ?_⟩
  simp only [List.get_eq_getElem]
  rw [getElem_split hj, ← getD_flatMap_toList hj']
  by_cases ht : 16 * j + i < ds.length
  · exact hle _ ht
  · rw [List.getD_eq_default _ _ (by omega)]
    exact UInt8.zero_le

end Group
end VertexPack
