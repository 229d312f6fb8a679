import VertexPack.Channel
import VertexPack.Proofs.Splitting
import VertexPack.Proofs.Words

/-! The runs of a column, which are told twice: by the bits that the values of a run share with the
value before it, and by the group of its deltas. All bits are shared exactly if the group is all
zeros. -/
namespace VertexPack

namespace Delta

theorem zigzag_eq_zero_iff {d : UInt8} : zigzag d = 0 ↔ d = 0 := by
  constructor
  · intro h
    rw [← unzigzag_zigzag d, h]
    rfl
  · intro h
    rw [h]
    rfl

theorem encode_eq_zero_iff {p : UInt8} {vs : List UInt8} :
    (∀ d ∈ encode p vs, d = 0) ↔ ∀ v ∈ vs, v = p := by
  induction vs generalizing p with
  | nil => simp [encode]
  | cons v vs ih =>
    have hstep : v - p = 0 ↔ v = p := by
      constructor
      · intro h
        rw [← UInt8.sub_add_cancel v p, h, UInt8.zero_add]
      · intro h
        rw [h, UInt8.sub_self]
    rw [encode, List.forall_mem_cons, List.forall_mem_cons, zigzag_eq_zero_iff, hstep, ih]
    constructor
    · rintro ⟨rfl, hrest⟩
      exact ⟨rfl, hrest⟩
    · rintro ⟨rfl, hrest⟩
      exact ⟨rfl, hrest⟩

end Delta

theorem Group.isZero_ofList_iff {ds : List UInt8} (h : ds.length ≤ 16) :
    (ofList ds).isZero = true ↔ ∀ d ∈ ds, d = 0 := by
  have hentry (i : Fin 16) : (ofList ds).get i = ds.getD i 0 := by
    rw [ofList, get_ofFn]
  rw [isZero_iff_get]
  constructor
  · intro hzero d hd
    obtain ⟨i, hi, rfl⟩ := List.mem_iff_getElem.1 hd
    have hget := hzero ⟨i, Nat.lt_of_lt_of_le hi h⟩
    rwa [hentry, List.getD_eq_getElem _ _ hi] at hget
  · intro hzero i
    rw [hentry]
    by_cases hi : i.val < ds.length
    · rw [List.getD_eq_getElem _ _ hi]
      exact hzero _ (List.getElem_mem hi)
    · exact List.getD_eq_default _ _ (Nat.le_of_not_lt hi)

theorem eq_ones_iff {v : UInt8} : v = 0xFF ↔ ∀ b < 8, v.toBitVec.getLsbD b = true := by
  have hones (b : Nat) (hb : b < 8) : (0xFF : UInt8).toBitVec.getLsbD b = true := by
    interval_cases b <;> rfl
  constructor
  · intro h
    rw [h]
    exact hones
  · intro h
    exact Word.byte_eq_of_getLsbD fun b hb => by rw [h b hb, hones b hb]

namespace Channel
variable {p : UInt8} {values column : List UInt8} {b j : Nat}

theorem getLsbD_sharedBits (hb : b < 8) : (sharedBits p values).toBitVec.getLsbD b = true ↔
    ∀ v ∈ values, v.toBitVec.getLsbD b = p.toBitVec.getLsbD b := by
  have hfold (bits : UInt8) :
      (values.foldl (fun bits v => bits &&& ~~~(v ^^^ p)) bits).toBitVec.getLsbD b = true ↔
        bits.toBitVec.getLsbD b = true ∧
          ∀ v ∈ values, v.toBitVec.getLsbD b = p.toBitVec.getLsbD b := by
    induction values generalizing bits with
    | nil => simp
    | cons v vs ih =>
      rw [List.foldl_cons, ih, List.forall_mem_cons]
      simp [hb, and_assoc]
  rw [sharedBits, hfold, eq_ones_iff.1 rfl b hb]
  exact and_iff_right rfl

theorem sharedBits_eq_iff : sharedBits p values = 0xFF ↔ ∀ v ∈ values, v = p := by
  constructor
  · intro h v hv
    exact Word.byte_eq_of_getLsbD fun b hb => (getLsbD_sharedBits hb).1 (eq_ones_iff.1 h b hb) v hv
  · intro h
    exact eq_ones_iff.2 fun b hb => (getLsbD_sharedBits hb).2 fun v hv => by rw [h v hv]

/-- A run keeps the value before it in all bits exactly if its deltas are a group of zeros. -/
theorem sharedBits_eq_iff_isZero (hlen : values.length ≤ 16) :
    sharedBits p values = 0xFF ↔ (Group.ofList (Delta.encode p values)).isZero = true := by
  rw [sharedBits_eq_iff, Group.isZero_ofList_iff (by rwa [Delta.encode_length]),
    Delta.encode_eq_zero_iff]

def follow (p : UInt8) : List (List UInt8) → List (UInt8 × List UInt8)
  | [] => []
  | run :: runs => (p, run) :: follow (run.getLastD p) runs

theorem consistency_eq_map (p : UInt8) (runs : List (List UInt8)) :
    consistency p runs = (follow p runs).map fun run => (sharedBits run.1 run.2, run.2.length) := by
  induction runs generalizing p with
  | nil => rfl
  | cons run runs ih => rw [consistency, ih, follow, List.map_cons]

theorem split_encode_eq_map (p : UInt8) (column : List UInt8) :
    Group.split (Delta.encode p column) =
      (follow p (chunks Layout.groupSize column)).map fun run =>
        Group.ofList (Delta.encode run.1 run.2) := by
  have hn : 0 < Layout.groupSize := by decide
  induction column using chunks_induction hn generalizing p with
  | nil => simp [chunks_nil hn, Delta.encode, Group.split, follow]
  | step column hne ih =>
    have hdeltas : Delta.encode p column ≠ [] := by
      rwa [← List.length_pos_iff, Delta.encode_length, List.length_pos_iff]
    rw [chunks_of_ne_nil hn hne, follow, List.map_cons, ← ih, Group.split,
      chunks_of_ne_nil hn hdeltas, Delta.encode_take, Delta.encode_drop, List.map_cons, Group.split]

theorem follow_length (p : UInt8) (runs : List (List UInt8)) :
    (follow p runs).length = runs.length := by
  induction runs generalizing p with
  | nil => rfl
  | cons run runs ih => rw [follow, List.length_cons, ih, List.length_cons]

theorem getElem_follow {runs : List (List UInt8)} (hj : j < (follow p runs).length)
    (hruns : j < runs.length) :
    (follow p runs)[j] = ((runs.take j).flatten.getLastD p, runs[j]) := by
  induction runs generalizing p j with
  | nil => cases hruns
  | cons run runs ih =>
    cases j with
    | zero => rfl
    | succ j =>
      simp only [follow, List.getElem_cons_succ, List.take_succ_cons, List.flatten_cons]
      rw [ih _ (Nat.lt_of_succ_lt_succ hruns), getLastD_append]

theorem mem_of_mem_follow {runs : List (List UInt8)} {run : UInt8 × List UInt8}
    (h : run ∈ follow p runs) : run.2 ∈ runs := by
  induction runs generalizing p with
  | nil => cases h
  | cons first runs ih =>
    cases h with
    | head => exact List.mem_cons_self
    | tail _ h => exact List.mem_cons_of_mem _ (ih h)

theorem getElem_follow_chunks (hj : j < (follow p (chunks Layout.groupSize column)).length) :
    (follow p (chunks Layout.groupSize column))[j] =
      (if j = 0 then p else column.getD (16 * j - 1) 0, (column.drop (16 * j)).take 16) := by
  have hchunk : j < (chunks Layout.groupSize column).length := by rwa [follow_length] at hj
  have hle : 16 * j ≤ column.length := by
    rw [chunks_length, Layout.groupSize, ceilDiv] at hchunk
    omega
  rw [getElem_follow hj hchunk, flatten_take_chunks (Nat.le_of_lt hchunk), getElem_chunks]
  rw [Layout.groupSize, getLastD_take hle p 0]
  simp

end Channel
end VertexPack
