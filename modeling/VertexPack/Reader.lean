import VertexPack.Bytes
import VertexPack.Error

/-!
A reader stands somewhere in a list of bytes. What it has not read is always an
end of that list, and a refused read does not move it.
-/
namespace VertexPack

/-- A source and the part of it that is still to be read. -/
structure Reader where
  data : List UInt8
  rest : List UInt8
  rest_suffix : rest <:+ data

abbrev Reading (ε : Type) := EStateM ε Reader

abbrev Decoding := Reading StreamError

namespace Reader

def ofBytes (data : List UInt8) : Reader := ⟨data, data, List.suffix_rfl⟩

def remaining (r : Reader) : Nat := r.rest.length

def position (r : Reader) : Nat := r.data.length - r.rest.length

def isEmpty (r : Reader) : Bool := r.rest.isEmpty

def skip (n : Nat) (r : Reader) : Reader :=
  ⟨r.data, r.rest.drop n, (List.drop_suffix n r.rest).trans r.rest_suffix⟩

def ensure (n : Nat) : Reading CursorError Unit := fun r =>
  if hasAtLeast n r.rest then .ok () r else .error (.unexpectedEnd n r.remaining) r

def take (n : Nat) : Reading CursorError { bs : List UInt8 // bs.length = n } := fun r =>
  if h : hasAtLeast n r.rest then
    .ok ⟨r.rest.take n, List.length_take_of_le (hasAtLeast_iff.1 h)⟩ (r.skip n)
  else .error (.unexpectedEnd n r.remaining) r

def byte : Reading CursorError UInt8 := do
  let ⟨bs, h⟩ ← take 1
  pure bs[0]

def word : Reading CursorError UInt32 := do
  let ⟨bs, _⟩ ← take 4
  pure (Word.ofBytes bs)

/-- The last `n` bytes of the source, wherever the reader stands. -/
def tail (n : Nat) (r : Reader) : Except CursorError (List UInt8) :=
  if n ≤ r.data.length then .ok (r.data.drop (r.data.length - n))
  else .error (.unexpectedEnd n r.data.length)

theorem position_add_remaining (r : Reader) : r.position + r.remaining = r.data.length := by
  have h := r.rest_suffix.length_le
  simp only [position, remaining]
  omega

theorem drop_position (r : Reader) : r.data.drop r.position = r.rest := by
  obtain ⟨front, h⟩ := r.rest_suffix
  have hp : r.position = front.length := by simp [position, ← h]
  rw [hp, ← h]
  simp

theorem ensure_of_le {r : Reader} {n : Nat} (h : n ≤ r.remaining) : ensure n r = .ok () r := by
  simp_all [ensure, remaining]

theorem ensure_of_lt {r : Reader} {n : Nat} (h : r.remaining < n) :
    ensure n r = .error (.unexpectedEnd n r.remaining) r := by
  simp_all [ensure, remaining]

theorem take_of_le {r : Reader} {n : Nat} (h : n ≤ r.remaining) :
    take n r = .ok ⟨r.rest.take n, List.length_take_of_le h⟩ (r.skip n) := by
  have hn : hasAtLeast n r.rest = true := hasAtLeast_iff.2 h
  simp [take, hn]

theorem take_of_lt {r : Reader} {n : Nat} (h : r.remaining < n) :
    take n r = .error (.unexpectedEnd n r.remaining) r := by
  have hn : ¬ n ≤ r.rest.length := Nat.not_le.2 h
  simp [take, hn]

end Reader
end VertexPack
