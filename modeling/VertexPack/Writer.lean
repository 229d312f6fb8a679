import VertexPack.Bytes
import VertexPack.Error

/-!
A writer appends to a destination of fixed length. It is the pair of the bytes
written so far and the bytes of the destination that are still untouched, so an
append either fits as a whole or changes nothing.
-/
namespace VertexPack

/-- A destination, cut at the write position. -/
structure Writer where
  written : Array UInt8
  spare : List UInt8
  deriving Repr, DecidableEq

abbrev Writing (ε : Type) := EStateM ε Writer

namespace Writer

def ofDestination (destination : List UInt8) : Writer := ⟨#[], destination⟩

def position (w : Writer) : Nat := w.written.size

def remaining (w : Writer) : Nat := w.spare.length

def capacity (w : Writer) : Nat := w.position + w.remaining

def destination (w : Writer) : List UInt8 := w.written.toList ++ w.spare

def push (w : Writer) (bs : List UInt8) : Writer := ⟨w.written ++ bs, w.spare.drop bs.length⟩

def ensure (n : Nat) : Writing CursorError Unit := fun w =>
  if hasAtLeast n w.spare then .ok () w else .error (.overflow n w.remaining) w

def append (bs : List UInt8) : Writing CursorError Unit := fun w =>
  if hasAtLeast bs.length w.spare then .ok () (w.push bs)
  else .error (.overflow bs.length w.remaining) w

def appendByte (b : UInt8) : Writing CursorError Unit := append [b]

def appendWord (v : UInt32) : Writing CursorError Unit := append (Word.toBytes v)

/-- Appends `n` zeros; the room is checked before they are made. -/
def appendZeros (n : Nat) : Writing CursorError Unit := fun w =>
  if hasAtLeast n w.spare then .ok () (w.push (List.replicate n 0))
  else .error (.overflow n w.remaining) w

/-- Appends `n` zeros to be patched later and gives the offset of the first. -/
def reserve (n : Nat) : Writing CursorError Nat := fun w =>
  match appendZeros n w with
  | .ok _ after => .ok w.position after
  | .error e after => .error e after

def orAt (offset : Nat) (bits : UInt8) : Writing CursorError Unit := fun w =>
  if offset < w.position then .ok () ⟨w.written.modify offset (· ||| bits), w.spare⟩
  else .error (.invalidOffset offset w.position) w

@[simp] theorem written_push (w : Writer) (bs : List UInt8) :
    (w.push bs).written.toList = w.written.toList ++ bs := by
  simp [push]

@[simp] theorem position_push (w : Writer) (bs : List UInt8) :
    (w.push bs).position = w.position + bs.length := by
  rw [position, ← Array.length_toList, written_push, List.length_append, Array.length_toList,
    position]

@[simp] theorem remaining_push (w : Writer) (bs : List UInt8) :
    (w.push bs).remaining = w.remaining - bs.length := by
  simp [push, remaining]

theorem ensure_of_le {w : Writer} {n : Nat} (h : n ≤ w.remaining) : ensure n w = .ok () w := by
  simp_all [ensure, remaining]

theorem ensure_of_lt {w : Writer} {n : Nat} (h : w.remaining < n) :
    ensure n w = .error (.overflow n w.remaining) w := by
  simp_all [ensure, remaining]

theorem append_of_le {w : Writer} {bs : List UInt8} (h : bs.length ≤ w.remaining) :
    append bs w = .ok () (w.push bs) := by
  simp_all [append, remaining]

theorem append_of_lt {w : Writer} {bs : List UInt8} (h : w.remaining < bs.length) :
    append bs w = .error (.overflow bs.length w.remaining) w := by
  simp_all [append, remaining]

theorem appendZeros_of_le {w : Writer} {n : Nat} (h : n ≤ w.remaining) :
    appendZeros n w = .ok () (w.push (List.replicate n 0)) := by
  simp_all [appendZeros, remaining]

theorem appendZeros_of_lt {w : Writer} {n : Nat} (h : w.remaining < n) :
    appendZeros n w = .error (.overflow n w.remaining) w := by
  simp_all [appendZeros, remaining]

theorem reserve_of_le {w : Writer} {n : Nat} (h : n ≤ w.remaining) :
    reserve n w = .ok w.position (w.push (List.replicate n 0)) := by
  simp [reserve, appendZeros_of_le h]

theorem reserve_of_lt {w : Writer} {n : Nat} (h : w.remaining < n) :
    reserve n w = .error (.overflow n w.remaining) w := by
  simp [reserve, appendZeros_of_lt h]

theorem orAt_of_lt {w : Writer} {offset : Nat} {bits : UInt8} (h : offset < w.position) :
    orAt offset bits w = .ok () ⟨w.written.modify offset (· ||| bits), w.spare⟩ := by
  simp [orAt, h]

theorem orAt_of_le {w : Writer} {offset : Nat} {bits : UInt8} (h : w.position ≤ offset) :
    orAt offset bits w = .error (.invalidOffset offset w.position) w := by
  simp [orAt, Nat.not_lt.2 h]

end Writer
end VertexPack
