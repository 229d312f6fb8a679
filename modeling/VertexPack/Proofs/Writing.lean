import VertexPack.Proofs.Appending

/-! Steps of a writer that write given bytes if they fit and are refused for want of room if
they do not. -/
namespace VertexPack

/-- The step writes the bytes wherever there is room for them. -/
structure Writes (bytes : List UInt8) (step : Writing CursorError Unit) : Prop where
  fits : ∀ w : Writer, bytes.length ≤ w.remaining → step w = .ok () (w.push bytes)
  full : ∀ w : Writer, w.remaining < bytes.length →
    ∃ requested available w', step w = .error (.overflow requested available) w' ∧
      available < requested

namespace Writes
variable {u v bytes : List UInt8} {step next : Writing CursorError Unit}

theorem pure : Writes [] (pure () : Writing CursorError Unit) where
  fits w _ := by rw [Writer.push_nil]; rfl
  full w hw := absurd hw (Nat.not_lt_zero _)

theorem append (bytes : List UInt8) : Writes bytes (Writer.append bytes) where
  fits _ hw := Writer.append_of_le hw
  full _ hw := ⟨_, _, _, Writer.append_of_lt hw, hw⟩

theorem bind (h₁ : Writes u step) (h₂ : Writes v next) :
    Writes (u ++ v) (step >>= fun _ => next) where
  fits w hw := by
    rw [List.length_append] at hw
    have hroom : v.length ≤ (w.push u).remaining := by
      rw [Writer.remaining_push]
      omega
    rw [bind_of_ok (h₁.fits w (by omega)), h₂.fits _ hroom, Writer.push_push]
  full w hw := by
    rw [List.length_append] at hw
    by_cases hu : u.length ≤ w.remaining
    · have hroom : (w.push u).remaining < v.length := by
        rw [Writer.remaining_push]
        omega
      rw [bind_of_ok (h₁.fits w hu)]
      exact h₂.full _ hroom
    · obtain ⟨requested, available, w', hw', hlt⟩ := h₁.full w (Nat.lt_of_not_le hu)
      exact ⟨requested, available, w', bind_of_error hw', hlt⟩

theorem ensure_bind {n : Nat} (hn : n ≤ bytes.length) (h : Writes bytes next) :
    Writes bytes (Writer.ensure n >>= fun _ => next) where
  fits w hw := by
    rw [bind_of_ok (Writer.ensure_of_le (Nat.le_trans hn hw)), h.fits w hw]
  full w hw := by
    by_cases hroom : n ≤ w.remaining
    · rw [bind_of_ok (Writer.ensure_of_le hroom)]
      exact h.full w hw
    · have hlt := Nat.lt_of_not_le hroom
      exact ⟨_, _, _, bind_of_error (Writer.ensure_of_lt hlt), hlt⟩

theorem forM {ι : Type} {f : ι → Writing CursorError Unit} {bytes : ι → List UInt8}
    (h : ∀ i, Writes (bytes i) (f i)) (l : List ι) : Writes (l.flatMap bytes) (l.forM f) := by
  induction l with
  | nil => exact pure
  | cons i l ih =>
    rw [List.flatMap_cons]
    exact (h i).bind ih

theorem appends {σ : Type} (h : Writes bytes step) :
    Appends bytes.length bytes (Encoding.write step : Encoding σ Unit) where
  length_le := Nat.le_refl _
  room_le := Nat.le_add_right _ _
  fits s hs := ⟨_, Encoding.writing_of_ok _ (h.fits s.writer hs), rfl⟩
  full s hs := by
    obtain ⟨requested, available, w', hw', hlt⟩ := h.full s.writer hs
    exact ⟨requested, available, _, Encoding.writing_of_error _ hw', hlt⟩

end Writes
end VertexPack
