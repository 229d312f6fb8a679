import VertexPack.Bytes
import Mathlib.Data.List.Basic
import Mathlib.Data.List.GetD

/-! Vectors entry by entry, and lists cut into pieces: where a piece comes from, and how a
cut of a list follows from the cuts of its parts. -/
namespace VertexPack
variable {α : Type} {n : Nat}

theorem get_eq_getElem (v : Vector α n) (i : Fin n) : v.get i = getElem v i.val i.isLt := rfl

theorem get_ofFn (f : Fin n → α) (i : Fin n) : (Vector.ofFn f).get i = f i := Vector.getElem_ofFn _

theorem toList_eq_ofFn (v : Vector α n) : v.toList = List.ofFn v.get := by
  apply List.ext_getElem
  · simp
  · intro i hi hi'
    simp [get_eq_getElem]

theorem getD_flatMap_toList {vs : List (Vector α n)} {j : Nat} (hj : j < vs.length) (i : Fin n)
    (d : α) : (vs.flatMap Vector.toList).getD (n * j + i) d = vs[j].get i := by
  have hi := i.isLt
  induction vs generalizing j with
  | nil => simp at hj
  | cons v vs ih =>
    rw [List.flatMap_cons]
    cases j with
    | zero =>
      rw [List.getD_append _ _ _ _ (by simp), get_eq_getElem]
      simp
    | succ j =>
      rw [List.length_cons] at hj
      have hnext := ih (Nat.lt_of_succ_lt_succ hj)
      rw [Nat.mul_succ, List.getD_append_right _ _ _ _ (by simp; omega), Vector.length_toList,
        show n * j + n + i.val - n = n * j + i by omega, hnext]
      rfl

theorem flatMap_toList_length (vs : List (Vector α n)) :
    (vs.flatMap Vector.toList).length = n * vs.length := by
  simp [List.length_flatMap, Nat.mul_comm]

/-- Vectors that have a list entry by entry are a cut of it, padded at its end. -/
theorem take_flatMap_toList {vs : List (Vector α n)} {xs : List α} {d : α}
    (hroom : xs.length ≤ n * vs.length)
    (hvs : ∀ (j : Nat) (hj : j < vs.length) (i : Fin n), vs[j].get i = xs.getD (n * j + i) d) :
    (vs.flatMap Vector.toList).take xs.length = xs := by
  apply List.ext_getElem
  · rw [List.length_take, flatMap_toList_length, Nat.min_eq_left hroom]
  · intro t ht ht'
    have hn : 0 < n := Nat.pos_of_mul_pos_right (Nat.lt_of_lt_of_le (Nat.zero_lt_of_lt ht') hroom)
    have hj : t / n < vs.length := Nat.div_lt_of_lt_mul (Nat.lt_of_lt_of_le ht' hroom)
    have hentry := getD_flatMap_toList hj ⟨t % n, Nat.mod_lt t hn⟩ d
    rw [hvs, Fin.val_mk, Nat.div_add_mod] at hentry
    rw [List.getElem_take, ← List.getD_eq_getElem _ d, hentry, List.getD_eq_getElem _ d ht']

theorem getD_append_replicate (xs : List α) (k t : Nat) (d : α) :
    (xs ++ List.replicate k d).getD t d = xs.getD t d := by
  by_cases ht : t < xs.length
  · rw [List.getD_append _ _ _ _ ht]
  · rw [List.getD_eq_default _ _ (Nat.le_of_not_lt ht),
      List.getD_append_right _ _ _ _ (Nat.le_of_not_lt ht), List.getD_eq_getElem?_getD,
      List.getElem?_getD_replicate_default_eq]

theorem flatMap_toList_eq {vs : List (Vector α n)} {xs : List α} {d : α}
    (hroom : xs.length ≤ n * vs.length)
    (hvs : ∀ (j : Nat) (hj : j < vs.length) (i : Fin n), vs[j].get i = xs.getD (n * j + i) d) :
    vs.flatMap Vector.toList = xs ++ List.replicate (n * vs.length - xs.length) d := by
  have hlen : (xs ++ List.replicate (n * vs.length - xs.length) d).length = n * vs.length := by
    rw [List.length_append, List.length_replicate]
    omega
  have htake := take_flatMap_toList (Nat.le_of_eq hlen) fun j hj i => by
    rw [hvs, getD_append_replicate]
  rwa [List.take_of_length_le (Nat.le_of_eq ((flatMap_toList_length vs).trans hlen.symm))]
    at htake

theorem ceilDiv_zero (hn : 0 < n) : ceilDiv 0 n = 0 := by
  rw [ceilDiv, Nat.div_eq_of_lt (by omega)]

theorem ceilDiv_eq_succ {a : Nat} (hn : 0 < n) (ha : 0 < a) :
    ceilDiv a n = ceilDiv (a - n) n + 1 := by
  unfold ceilDiv
  by_cases h : a ≤ n
  · rw [Nat.sub_eq_zero_of_le h, Nat.div_eq_of_lt_le (by omega) (by omega : _ < 2 * n),
      Nat.div_eq_of_lt (by omega)]
  · rw [show a + n - 1 = (a - n + n - 1) + n by omega, Nat.add_div_right _ hn]

theorem le_ceilDiv_mul {a : Nat} (hn : 0 < n) : a ≤ ceilDiv a n * n := by
  have h := Nat.div_add_mod (a + n - 1) n
  have hlt := Nat.mod_lt (a + n - 1) hn
  rw [Nat.mul_comm] at h
  unfold ceilDiv
  omega

theorem ceilDiv_le_of_le_mul {a q : Nat} (hn : 0 < n) (h : a ≤ q * n) : ceilDiv a n ≤ q := by
  unfold ceilDiv
  rw [Nat.div_le_iff_le_mul_add_pred hn, Nat.mul_comm]
  omega

theorem ceilDiv_mul (q : Nat) (hn : 0 < n) : ceilDiv (q * n) n = q := by
  apply Nat.le_antisymm
  · exact ceilDiv_le_of_le_mul hn (Nat.le_refl _)
  · exact Nat.le_of_mul_le_mul_right (le_ceilDiv_mul hn) hn

theorem ceilDiv_mono {a b : Nat} (hn : 0 < n) (h : a ≤ b) : ceilDiv a n ≤ ceilDiv b n :=
  ceilDiv_le_of_le_mul hn (Nat.le_trans h (le_ceilDiv_mul hn))

theorem pieces_eq_map (m : Nat) (xs : List α) :
    pieces n m xs = (List.range m).map fun j => (xs.drop (n * j)).take n := by
  induction m generalizing xs with
  | zero => rfl
  | succ m ih =>
    rw [pieces, ih, List.range_succ_eq_map, List.map_cons, List.map_map]
    simp [List.drop_drop, Function.comp_def, Nat.mul_succ, Nat.add_comm]

@[simp] theorem getElem_pieces {m : Nat} {xs : List α} {j : Nat} (hj : j < (pieces n m xs).length) :
    (pieces n m xs)[j] = (xs.drop (n * j)).take n := by
  simp [pieces_eq_map]

theorem pieces_take (m : Nat) (xs : List α) : pieces n m (xs.take (m * n)) = pieces n m xs := by
  induction m generalizing xs with
  | zero => rfl
  | succ m ih =>
    have hfirst : min n ((m + 1) * n) = n := Nat.min_eq_left (Nat.le_mul_of_pos_left n m.succ_pos)
    rw [pieces, pieces, List.take_take, hfirst, List.drop_take, Nat.succ_mul, Nat.add_sub_cancel,
      ih]

theorem pieces_flatten (m : Nat) (xs : List α) : (pieces n m xs).flatten = xs.take (m * n) := by
  induction m generalizing xs with
  | zero => simp [pieces]
  | succ m ih => rw [pieces, List.flatten_cons, ih, Nat.succ_mul, Nat.add_comm, List.take_add]

theorem chunks_flatten (hn : 0 < n) (xs : List α) : (chunks n xs).flatten = xs := by
  rw [chunks, pieces_flatten, List.take_of_length_le (le_ceilDiv_mul hn)]

theorem chunks_map {β : Type} (f : α → β) (xs : List α) :
    chunks n (xs.map f) = (chunks n xs).map (List.map f) := by
  rw [chunks, chunks, pieces_eq_map, pieces_eq_map, List.length_map, List.map_map]
  simp [Function.comp_def, List.map_take, List.map_drop]

@[simp] theorem chunks_length (xs : List α) : (chunks n xs).length = ceilDiv xs.length n := by
  simp [chunks]

theorem getElem_chunks {xs : List α} {j : Nat} (hj : j < (chunks n xs).length) :
    (chunks n xs)[j] = (xs.drop (n * j)).take n :=
  getElem_pieces (by simpa using hj)

theorem flatten_take_chunks {xs : List α} {j : Nat} (hj : j ≤ (chunks n xs).length) :
    ((chunks n xs).take j).flatten = xs.take (n * j) := by
  rw [chunks_length] at hj
  rw [chunks, pieces_eq_map, ← List.map_take, List.take_range, Nat.min_eq_left hj, ← pieces_eq_map,
    pieces_flatten, Nat.mul_comm]

theorem chunks_nil (hn : 0 < n) : chunks n ([] : List α) = [] := by
  rw [chunks, List.length_nil, ceilDiv_zero hn, pieces]

theorem chunks_of_ne_nil {xs : List α} (hn : 0 < n) (hxs : xs ≠ []) :
    chunks n xs = xs.take n :: chunks n (xs.drop n) := by
  have hpos : 0 < xs.length := List.length_pos_iff.2 hxs
  rw [chunks, ceilDiv_eq_succ hn hpos, pieces, chunks, List.length_drop]

/-- What holds of the empty list, and of a list whenever it holds behind its first
piece, holds of every list. -/
@[elab_as_elim]
theorem chunks_induction (hn : 0 < n) {motive : List α → Prop} (nil : motive [])
    (step : ∀ xs, xs ≠ [] → motive (xs.drop n) → motive xs) (xs : List α) : motive xs := by
  induction hl : xs.length using Nat.strongRecOn generalizing xs with
  | _ l ih =>
    by_cases hxs : xs = []
    · rw [hxs]
      exact nil
    · have hpos : 0 < xs.length := List.length_pos_iff.2 hxs
      refine step xs hxs (ih (xs.drop n).length ?_ _ rfl)
      rw [List.length_drop]
      omega

theorem of_mem_chunks (hn : 0 < n) {xs b : List α} (hb : b ∈ chunks n xs) :
    b ≠ [] ∧ b.length ≤ n := by
  induction xs using chunks_induction hn with
  | nil => simp [chunks_nil hn] at hb
  | step xs hxs ih =>
    rw [chunks_of_ne_nil hn hxs, List.mem_cons] at hb
    rcases hb with rfl | hb
    · exact ⟨by simp [hxs, Nat.ne_of_gt hn], List.length_take_le n xs⟩
    · exact ih hb

theorem length_of_mem_dropLast_chunks (hn : 0 < n) {xs b : List α}
    (hb : b ∈ (chunks n xs).dropLast) : b.length = n := by
  induction xs using chunks_induction hn with
  | nil => simp [chunks_nil hn] at hb
  | step xs hxs ih =>
    rw [chunks_of_ne_nil hn hxs] at hb
    by_cases hrest : chunks n (xs.drop n) = []
    · rw [hrest] at hb
      cases hb
    · rw [List.dropLast_cons_of_ne_nil hrest, List.mem_cons] at hb
      rcases hb with rfl | hb
      · have hdrop : xs.drop n ≠ [] := fun h => hrest (h ▸ chunks_nil hn)
        have hlt := List.length_pos_iff.2 hdrop
        rw [List.length_drop] at hlt
        rw [List.length_take]
        omega
      · exact ih hb

theorem chunks_append {xs : List α} (hn : 0 < n) (h : n ∣ xs.length) (ys : List α) :
    chunks n (xs ++ ys) = chunks n xs ++ chunks n ys := by
  induction xs using chunks_induction hn with
  | nil => simp [chunks_nil hn]
  | step xs hxs ih =>
    have hle : n ≤ xs.length := Nat.le_of_dvd (List.length_pos_iff.2 hxs) h
    have hdrop : n ∣ (xs.drop n).length := by
      rw [List.length_drop]
      exact Nat.dvd_sub h (Nat.dvd_refl n)
    rw [chunks_of_ne_nil hn (List.append_ne_nil_of_left_ne_nil hxs ys), chunks_of_ne_nil hn hxs,
      List.take_append_of_le_length hle, List.drop_append_of_le_length hle, ih hdrop,
      List.cons_append]

theorem chunks_cons {xs ys : List α} (hn : 0 < n) (hxs : xs ≠ []) (hle : xs.length ≤ n)
    (hys : xs.length < n → ys = []) : chunks n (xs ++ ys) = xs :: chunks n ys := by
  rw [chunks_of_ne_nil hn (List.append_ne_nil_of_left_ne_nil hxs ys)]
  by_cases hlt : xs.length < n
  · rw [hys hlt, List.append_nil, List.take_of_length_le hle, List.drop_of_length_le hle]
  · have hlen : xs.length = n := by omega
    rw [← hlen, List.take_left, List.drop_left]

theorem chunks_flatMap {β : Type} (hn : 0 < n) {f : β → List α}
    (hf : ∀ b, (f b).length = n) (l : List β) : chunks n (l.flatMap f) = l.map f := by
  induction l with
  | nil => exact chunks_nil hn
  | cons b l ih =>
    have hne : f b ≠ [] := List.length_pos_iff.1 ((hf b).symm ▸ hn)
    have hfull (hlt : (f b).length < n) : l.flatMap f = [] :=
      absurd (hf b) (Nat.ne_of_lt hlt)
    rw [List.flatMap_cons, chunks_cons hn hne (Nat.le_of_eq (hf b)) hfull, ih, List.map_cons]

theorem chunks_of_length_le {xs : List α} (hn : 0 < n) (hxs : xs ≠ []) (hle : xs.length ≤ n) :
    chunks n xs = [xs] := by
  have hcons : chunks n (xs ++ []) = xs :: chunks n [] := chunks_cons hn hxs hle fun _ => rfl
  rwa [List.append_nil, chunks_nil hn] at hcons

end VertexPack
