import VertexPack.Session
import VertexPack.Layout
import VertexPack.Proofs.Run
import Mathlib.Data.List.Basic

/-! What an encoding step appends and how much room it demands. The two differ by less
than the headroom of a group, whatever the observer does. -/
namespace VertexPack

namespace Writer

theorem eq_push {w w' : Writer} {bs : List UInt8}
    (hw : w'.written.toList = w.written.toList ++ bs) (hs : w'.spare = w.spare.drop bs.length) :
    w' = w.push bs := by
  obtain ⟨written, spare⟩ := w'
  rw [← written_push] at hw
  cases Array.toList_inj.1 hw
  cases hs
  rfl

theorem push_nil (w : Writer) : w.push [] = w := by
  simp [push]

theorem push_push (w : Writer) (u v : List UInt8) : (w.push u).push v = w.push (u ++ v) := by
  apply eq_push
  · simp
  · simp [push]

theorem destination_push (w : Writer) (bs : List UInt8) :
    (w.push bs).destination = w.written.toList ++ bs ++ w.spare.drop bs.length := by
  rw [destination, written_push, push]

theorem destination_ofDestination_push (destination bs : List UInt8) :
    ((ofDestination destination).push bs).destination = bs ++ destination.drop bs.length := by
  rw [destination_push]
  rfl

end Writer

namespace Encoding
variable {σ ε α : Type} {s : Session σ}

theorem writing_of_ok (convert : ε → StreamError) {step : Writing ε α} {a : α} {w : Writer}
    (h : step s.writer = .ok a w) : writing convert step s = .ok a { s with writer := w } := by
  rw [writing, h]

theorem writing_of_error (convert : ε → StreamError) {step : Writing ε α} {e : ε} {w : Writer}
    (h : step s.writer = .error e w) :
    writing convert step s = .error (convert e) { s with writer := w } := by
  rw [writing, h]

end Encoding

/-- With room for `room` bytes the step appends `bytes`; with less it is refused for want
of room. -/
structure Appends {σ : Type} (room : Nat) (bytes : List UInt8) (step : Encoding σ Unit) : Prop where
  length_le : bytes.length ≤ room
  room_le : room ≤ bytes.length + Layout.headroom
  fits : ∀ s : Session σ, room ≤ s.writer.remaining →
    ∃ s', step s = .ok () s' ∧ s'.writer = s.writer.push bytes
  full : ∀ s : Session σ, s.writer.remaining < room →
    ∃ needed available s', step s = .error (.outputTooSmall needed available) s' ∧
      available < needed

namespace Appends
variable {σ : Type} {r r₁ r₂ : Nat} {u v bytes : List UInt8} {step next : Encoding σ Unit}

theorem quiet (h : ∀ s : Session σ, ∃ s', step s = .ok () s' ∧ s'.writer = s.writer) :
    Appends 0 [] step where
  length_le := Nat.le_refl 0
  room_le := Nat.zero_le _
  fits s _ := by
    obtain ⟨s', hs, hw⟩ := h s
    exact ⟨s', hs, by rw [hw, Writer.push_nil]⟩
  full s hs := absurd hs (Nat.not_lt_zero _)

theorem pure : Appends 0 [] (pure () : Encoding σ Unit) :=
  quiet fun s => ⟨s, rfl, rfl⟩

theorem report (obs : Observer σ) (event : Event) : Appends 0 [] (Encoding.report obs event) :=
  quiet fun _ => ⟨_, rfl, rfl⟩

theorem note (notice : Notice) : Appends 0 [] (Encoding.note notice : Encoding σ Unit) :=
  quiet fun _ => ⟨_, rfl, rfl⟩

theorem bind (h₁ : Appends r₁ u step) (h₂ : Appends r₂ v next) :
    Appends (max r₁ (u.length + r₂)) (u ++ v) (step >>= fun _ => next) where
  length_le := by
    have h := h₂.length_le
    rw [List.length_append]
    omega
  room_le := by
    have h₁ := h₁.room_le
    have h₂ := h₂.room_le
    rw [List.length_append]
    omega
  fits s hs := by
    obtain ⟨s₁, hs₁, hw₁⟩ := h₁.fits s (by omega)
    have hroom : r₂ ≤ s₁.writer.remaining := by
      rw [hw₁, Writer.remaining_push]
      omega
    obtain ⟨s₂, hs₂, hw₂⟩ := h₂.fits s₁ hroom
    exact ⟨s₂, (bind_of_ok hs₁).trans hs₂, by rw [hw₂, hw₁, Writer.push_push]⟩
  full s hs := by
    have hu := h₁.length_le
    by_cases hr : s.writer.remaining < r₁
    · obtain ⟨needed, available, s', hs', hlt⟩ := h₁.full s hr
      exact ⟨needed, available, s', bind_of_error hs', hlt⟩
    · obtain ⟨s₁, hs₁, hw₁⟩ := h₁.fits s (Nat.le_of_not_lt hr)
      have hroom : s₁.writer.remaining < r₂ := by
        rw [hw₁, Writer.remaining_push]
        omega
      obtain ⟨needed, available, s', hs', hlt⟩ := h₂.full s₁ hroom
      exact ⟨needed, available, s', (bind_of_ok hs₁).trans hs', hlt⟩

theorem quiet_bind (h₁ : Appends 0 [] step) (h₂ : Appends r bytes next) :
    Appends r bytes (step >>= fun _ => next) := by
  simpa using h₁.bind h₂

theorem bind_quiet (h₁ : Appends r bytes step) (h₂ : Appends 0 [] next) :
    Appends r bytes (step >>= fun _ => next) := by
  have h := h₁.bind h₂
  rwa [List.append_nil, Nat.add_zero, Nat.max_eq_left h₁.length_le] at h

/-- A step may look at the session to choose what it does next. -/
theorem look {α : Type} {get : Encoding σ α} {f : α → Encoding σ Unit} (hl : bytes.length ≤ r)
    (hr : r ≤ bytes.length + Layout.headroom) (hget : ∀ s, ∃ a, get s = .ok a s)
    (hf : ∀ a, Appends r bytes (f a)) : Appends r bytes (get >>= f) where
  length_le := hl
  room_le := hr
  fits s hs := by
    obtain ⟨a, ha⟩ := hget s
    rw [bind_of_ok ha]
    exact (hf a).fits s hs
  full s hs := by
    obtain ⟨a, ha⟩ := hget s
    rw [bind_of_ok ha]
    exact (hf a).full s hs

theorem forM {ι : Type} {f : ι → Encoding σ Unit} {bytes : ι → List UInt8}
    (h : ∀ i, ∃ r, Appends r (bytes i) (f i)) (l : List ι) :
    ∃ r, Appends r (l.flatMap bytes) (l.forM f) := by
  induction l with
  | nil => exact ⟨0, pure⟩
  | cons i l ih =>
    obtain ⟨r, hr⟩ := h i
    obtain ⟨r', hr'⟩ := ih
    rw [List.flatMap_cons]
    exact ⟨_, hr.bind hr'⟩

theorem reports {ι : Type} (obs : Observer σ) (event : ι → Event) (l : List ι) :
    Appends 0 [] (l.forM fun i => Encoding.report obs (event i)) := by
  induction l with
  | nil => exact pure
  | cons i l ih => exact (report obs (event i)).quiet_bind ih

theorem ensure_bind {n : Nat} (hn : n ≤ r) (h : Appends r bytes next) :
    Appends r bytes (Encoding.write (Writer.ensure n) >>= fun _ => next) where
  length_le := h.length_le
  room_le := h.room_le
  fits s hs := by
    have hw : Encoding.write (Writer.ensure n) s = .ok () s :=
      Encoding.writing_of_ok _ (Writer.ensure_of_le (Nat.le_trans hn hs))
    rw [bind_of_ok hw]
    exact h.fits s hs
  full s hs := by
    by_cases hroom : n ≤ s.writer.remaining
    · have hw : Encoding.write (Writer.ensure n) s = .ok () s :=
        Encoding.writing_of_ok _ (Writer.ensure_of_le hroom)
      rw [bind_of_ok hw]
      exact h.full s hs
    · have hlt := Nat.lt_of_not_le hroom
      have hw := Encoding.writing_of_error .ofCursor (Writer.ensure_of_lt hlt)
      exact ⟨n, s.writer.remaining, _, bind_of_error hw, hlt⟩

theorem writing {ε : Type} {convert : ε → StreamError} {write : Writing ε Unit}
    (hfits : ∀ w, bytes.length ≤ w.remaining → write w = .ok () (w.push bytes))
    (hfull : ∀ w, w.remaining < bytes.length → ∃ e, write w = .error e w ∧
      convert e = .outputTooSmall bytes.length w.remaining) :
    Appends bytes.length bytes (Encoding.writing convert write : Encoding σ Unit) where
  length_le := Nat.le_refl _
  room_le := Nat.le_add_right _ _
  fits s hs := ⟨_, Encoding.writing_of_ok convert (hfits s.writer hs), rfl⟩
  full s hs := by
    obtain ⟨e, he, hconvert⟩ := hfull s.writer hs
    have hw := Encoding.writing_of_error convert he
    rw [hconvert] at hw
    exact ⟨_, _, _, hw, hs⟩

theorem room_le_remaining {s s' : Session σ} (h : Appends r bytes step)
    (hrun : step s = .ok () s') : r ≤ s.writer.remaining := by
  refine Nat.le_of_not_lt fun hlt => ?_
  obtain ⟨_, _, t, ht, _⟩ := h.full s hlt
  cases hrun.symm.trans ht

theorem length_le_remaining {s s' : Session σ} (h : Appends r bytes step)
    (hrun : step s = .ok () s') : bytes.length ≤ s.writer.remaining :=
  Nat.le_trans h.length_le (h.room_le_remaining hrun)

theorem writer_eq_push {s s' : Session σ} (h : Appends r bytes step)
    (hrun : step s = .ok () s') : s'.writer = s.writer.push bytes := by
  obtain ⟨t, ht, hw⟩ := h.fits s (h.room_le_remaining hrun)
  cases hrun.symm.trans ht
  exact hw

theorem noting (notice : StreamError → Notice) (h : Appends r bytes step) :
    Appends r bytes (Encoding.noting notice step) where
  length_le := h.length_le
  room_le := h.room_le
  fits s hs := by
    obtain ⟨s', hs', hw⟩ := h.fits s hs
    exact ⟨s', by rw [Encoding.noting, hs'], hw⟩
  full s hs := by
    obtain ⟨needed, available, s', hs', hlt⟩ := h.full s hs
    exact ⟨needed, available, _, by rw [Encoding.noting, hs'], hlt⟩

end Appends

/-- With room for `bytes` the step appends them and gives the position behind them; with less
room it is refused. -/
structure Emits {σ : Type} (bytes : List UInt8) (step : Encoding σ Nat) : Prop where
  fits : ∀ s : Session σ, bytes.length ≤ s.writer.remaining → ∃ s',
    step s = .ok (s.writer.position + bytes.length) s' ∧ s'.writer = s.writer.push bytes
  full : ∀ s : Session σ, s.writer.remaining < bytes.length →
    ∃ needed available s', step s = .error (.outputTooSmall needed available) s' ∧
      available < needed

section Emits
variable {σ : Type} {bytes destination : List UInt8}

/-- What stands behind the last byte may report and note the position. -/
theorem Appends.emits {step : Encoding σ Unit} {close : Nat → Encoding σ Unit}
    (h : Appends bytes.length bytes step) (hclose : ∀ total, Appends 0 [] (close total)) :
    Emits bytes (do
      step
      let total ← Encoding.position
      close total
      return total) where
  fits s hs := by
    obtain ⟨s₁, hs₁, hw₁⟩ := h.fits s hs
    have hposition : s₁.writer.position = s.writer.position + bytes.length := by
      rw [hw₁, Writer.position_push]
    obtain ⟨s₂, hs₂, hw₂⟩ := (hclose s₁.writer.position).fits s₁ (Nat.zero_le _)
    rw [Writer.push_nil, hw₁] at hw₂
    have hget : Encoding.position s₁ = .ok s₁.writer.position s₁ := rfl
    rw [bind_of_ok hs₁, bind_of_ok hget, bind_of_ok hs₂, ← hposition]
    exact ⟨s₂, rfl, hw₂⟩
  full s hs := by
    obtain ⟨needed, available, s', hs', hlt⟩ := h.full s hs
    exact ⟨needed, available, s', bind_of_error hs', hlt⟩

namespace Emits
variable {step : Encoding σ Nat} (h : Emits bytes step) (observed : σ)
include h

theorem start_of_le (hle : bytes.length ≤ destination.length) :
    ∃ s, step (.start destination observed) = .ok bytes.length s ∧
      s.writer.destination = bytes ++ destination.drop bytes.length := by
  obtain ⟨s, hs, hw⟩ := h.fits (.start destination observed) hle
  have hposition : (Session.start destination observed).writer.position + bytes.length =
      bytes.length := Nat.zero_add _
  rw [hposition] at hs
  exact ⟨s, hs, (congrArg Writer.destination hw).trans
    (Writer.destination_ofDestination_push _ _)⟩

theorem start_of_lt (hlt : destination.length < bytes.length) :
    ∃ needed available s, step (.start destination observed) =
      .error (.outputTooSmall needed available) s ∧ available < needed :=
  h.full (.start destination observed) hlt

theorem of_start_eq_ok {len : Nat} {s : Session σ}
    (hrun : step (.start destination observed) = .ok len s) :
    len = bytes.length ∧ len ≤ destination.length ∧
      s.writer.destination = bytes ++ destination.drop len := by
  by_cases hle : bytes.length ≤ destination.length
  · obtain ⟨s', hs', hbytes⟩ := h.start_of_le observed hle
    cases hrun.symm.trans hs'
    exact ⟨rfl, hle, hbytes⟩
  · obtain ⟨needed, available, s', hs', _⟩ := h.start_of_lt observed (Nat.lt_of_not_le hle)
    cases hrun.symm.trans hs'

theorem take_of_start_eq_ok {len : Nat} {s : Session σ}
    (hrun : step (.start destination observed) = .ok len s) :
    s.writer.destination.take len = bytes := by
  obtain ⟨rfl, _, hbytes⟩ := h.of_start_eq_ok observed hrun
  rw [hbytes, List.take_left]

end Emits
end Emits
end VertexPack
