import Mathlib.Data.List.Basic
import Mathlib.Data.List.GetD

/-! Lists told by the steps between their neighbours, and lists in which the last item is
repeated. What is added by repeating it is steps from the item to itself. -/
namespace VertexPack
variable {α β : Type}

theorem getLastD_append (us vs : List α) (p : α) :
    (us ++ vs).getLastD p = vs.getLastD (us.getLastD p) := by
  induction us generalizing p with
  | nil => rfl
  | cons u us ih => simp only [List.cons_append, List.getLastD_cons, ih]

theorem getLastD_take {xs : List α} {m : Nat} (hm : m ≤ xs.length) (p d : α) :
    (xs.take m).getLastD p = if m = 0 then p else xs.getD (m - 1) d := by
  rw [List.getLastD_eq_getLast?, List.getLast?_take]
  split
  · rfl
  · rw [List.getElem?_eq_getElem (by omega), List.getD_eq_getElem _ _ (by omega)]
    rfl

section Steps
variable {f : α → α → β}

/-- The step to each item from the one before it; the first step starts at `p`. -/
def stepsFrom (f : α → α → β) : α → List α → List β
  | _, [] => []
  | p, v :: vs => f p v :: stepsFrom f v vs

theorem getElem_stepsFrom {p : α} {vs : List α} {t : Nat} (d : α)
    (ht : t < (stepsFrom f p vs).length) :
    (stepsFrom f p vs)[t] = f (if t = 0 then p else vs.getD (t - 1) d) (vs.getD t d) := by
  induction vs generalizing p t with
  | nil => simp [stepsFrom] at ht
  | cons v vs ih =>
    cases t with
    | zero => simp [stepsFrom]
    | succ t =>
      simp only [stepsFrom, List.getElem_cons_succ]
      rw [ih]
      cases t with
      | zero => simp
      | succ t => simp

theorem stepsFrom_append (p : α) (us vs : List α) :
    stepsFrom f p (us ++ vs) = stepsFrom f p us ++ stepsFrom f (us.getLastD p) vs := by
  induction us generalizing p with
  | nil => rfl
  | cons u us ih => simp only [List.cons_append, stepsFrom, List.getLastD_cons, ih]

theorem stepsFrom_take (p : α) (m : Nat) (vs : List α) :
    stepsFrom f p (vs.take m) = (stepsFrom f p vs).take m := by
  induction vs generalizing p m with
  | nil => simp [stepsFrom]
  | cons v vs ih =>
    cases m with
    | zero => rfl
    | succ m => simp [stepsFrom, ih]

theorem stepsFrom_drop (p : α) (m : Nat) (vs : List α) :
    stepsFrom f ((vs.take m).getLastD p) (vs.drop m) = (stepsFrom f p vs).drop m := by
  induction vs generalizing p m with
  | nil => simp [stepsFrom]
  | cons v vs ih =>
    cases m with
    | zero => rfl
    | succ m =>
      rw [List.take_succ_cons, List.getLastD_cons, List.drop_succ_cons, ih, stepsFrom,
        List.drop_succ_cons]

theorem stepsFrom_replicate {p : α} {d : β} (h : f p p = d) (k : Nat) :
    stepsFrom f p (List.replicate k p) = List.replicate k d := by
  induction k with
  | zero => rfl
  | succ k ih => simp [List.replicate_succ, stepsFrom, h, ih]

end Steps

/-- The first `m` items; where there are too few, copies of the last one follow, or of `p` if there
is none. -/
def repeatLast (p : α) (m : Nat) (xs : List α) : List α :=
  (xs ++ List.replicate (m - xs.length) (xs.getLastD p)).take m

section Repeat
variable {p : α} {m : Nat} {xs : List α}

@[simp] theorem repeatLast_length (p : α) (m : Nat) (xs : List α) :
    (repeatLast p m xs).length = m := by
  simp [repeatLast]
  omega

theorem repeatLast_map (f : α → β) (p : α) (m : Nat) (xs : List α) :
    (repeatLast p m xs).map f = repeatLast (f p) m (xs.map f) := by
  simp [repeatLast, List.map_take]

theorem repeatLast_append {us : List α} (h : us.length ≤ m) (p : α) (vs : List α) :
    repeatLast p m (us ++ vs) = us ++ repeatLast (us.getLastD p) (m - us.length) vs := by
  obtain ⟨k, rfl⟩ := Nat.exists_eq_add_of_le h
  simp only [repeatLast, getLastD_append, List.append_assoc, List.take_length_add_append,
    List.length_append, Nat.add_sub_add_left, Nat.add_sub_cancel_left]

theorem take_repeatLast (p : α) {k : Nat} (hm : k ≤ m) (hk : k ≤ xs.length) :
    (repeatLast p m xs).take k = xs.take k := by
  rw [repeatLast, List.take_take, Nat.min_eq_left hm, List.take_append_of_le_length hk]

theorem getElem_repeatLast {i : Nat} (hi : i < (repeatLast p m xs).length) (h : xs.length ≤ i) :
    (repeatLast p m xs)[i] = xs.getLastD p := by
  simp [repeatLast, List.getElem_append_right h]

theorem take_append_replicate {k k' : Nat} (d : α) (h : m - xs.length ≤ k)
    (h' : m - xs.length ≤ k') :
    (xs ++ List.replicate k d).take m = (xs ++ List.replicate k' d).take m := by
  simp [List.take_append, List.take_replicate, Nat.min_eq_left h, Nat.min_eq_left h']

theorem stepsFrom_repeatLast {f : α → α → β} {d : β} (h : ∀ v, f v v = d) (p : α) (m : Nat)
    (vs : List α) : stepsFrom f p (repeatLast p m vs) =
      (stepsFrom f p vs ++ List.replicate (m - vs.length) d).take m := by
  rw [repeatLast, stepsFrom_take, stepsFrom_append, stepsFrom_replicate (h _)]

end Repeat
end VertexPack
