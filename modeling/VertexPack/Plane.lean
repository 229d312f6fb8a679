import VertexPack.Bytes

/-!
Bit planes. The words of a column are rotated so that their top bit is the
lowest, replaced by their wrapping differences, and folded so that small steps
either way have few bits besides the top one. Thirty-two folded words are a
square of bits; its rows, one for each place in a word, are the planes.
-/
namespace VertexPack.Plane

/-- A square of bits: thirty-two words, or the thirty-two planes of them. -/
abbrev Square := Vector UInt32 32

def foldMask : UInt32 := 0x7FFFFFFF

/-- Flips all bits but the top one where the top one is set; this undoes itself. -/
def flip (d : UInt32) : UInt32 := if d >>> 31 ≠ 0 then d ^^^ foldMask else d

def fold (value last : UInt32) : UInt32 := flip (value - last)

def unfold (folded last : UInt32) : UInt32 := last + flip folded

/-- The folded steps through the words, the first of them from `last`. -/
def foldAll (last : UInt32) : List UInt32 → List UInt32
  | [] => []
  | v :: vs => fold v last :: foldAll v vs

def unfoldAll (last : UInt32) : List UInt32 → List UInt32
  | [] => []
  | f :: fs => unfold f last :: unfoldAll (unfold f last) fs

@[simp] theorem unfoldAll_length (last : UInt32) (fs : List UInt32) :
    (unfoldAll last fs).length = fs.length := by
  induction fs generalizing last with
  | nil => rfl
  | cons f fs ih => simp [unfoldAll, ih]

def ofList (words : List UInt32) : Square := Vector.ofFn fun i => words.getD i 0

def bit (w : UInt32) (i : Nat) : UInt32 := (w >>> i.toUInt32) &&& 1

/-- Plane `r` of the words: bit `c` of it is bit `r` of word `c`. -/
def row (words : Square) (r : Fin 32) : UInt32 :=
  (List.finRange 32).foldl (fun plane c => plane ||| (bit words[c] r <<< c.val.toUInt32)) 0

def transpose (words : Square) : Square := Vector.ofFn (row words)

def mask (planes : Square) : UInt32 :=
  (List.finRange 32).foldl
    (fun (m : UInt32) (r : Fin 32) =>
      if planes[r] = 0 then m else m ||| (1 <<< r.val.toUInt32)) 0

def countOnes (w : UInt32) : Nat := (List.finRange 32).countP fun r : Fin 32 => bit w r ≠ 0

def stored (planes : Square) : List UInt32 := planes.toList.filter (· ≠ 0)

end VertexPack.Plane
