/-!
Lists of bytes: their lengths, which are natural numbers below the limit of a 64-bit
address, the pieces that they are cut into, words, least significant byte first, and
records with their columns of bytes and of words.
-/
namespace VertexPack

namespace Capacity

def limit : Nat := 18446744073709551616

def largest : Nat := limit - 1

/-- The number itself if it is a size; arithmetic that reaches the limit has no result. -/
def checked (n : Nat) : Option Nat := if n < limit then some n else none

def mul (a b : Nat) : Option Nat := checked (a * b)

def add (a b : Nat) : Option Nat := checked (a + b)

@[simp] theorem checked_eq_some_iff {n m : Nat} : checked n = some m ↔ n < limit ∧ n = m := by
  simp [checked]

end Capacity

section Pieces
variable {α : Type}

def ceilDiv (a b : Nat) : Nat := (a + b - 1) / b

/-- The first `m` pieces of `n` items each; a piece is short where the list runs out. -/
def pieces (n : Nat) : Nat → List α → List (List α)
  | 0, _ => []
  | m + 1, xs => xs.take n :: pieces n m (xs.drop n)

def chunks (n : Nat) (xs : List α) : List (List α) :=
  pieces n (ceilDiv xs.length n) xs

def hasAtLeast : Nat → List α → Bool
  | 0, _ => true
  | _ + 1, [] => false
  | n + 1, _ :: xs => hasAtLeast n xs

@[simp] theorem hasAtLeast_iff {n : Nat} {xs : List α} :
    hasAtLeast n xs = true ↔ n ≤ xs.length := by
  fun_induction hasAtLeast n xs <;> simp_all

@[simp] theorem pieces_length (n m : Nat) (xs : List α) : (pieces n m xs).length = m := by
  induction m generalizing xs with
  | zero => rfl
  | succ m ih => simp [pieces, ih]

end Pieces

namespace Word

def byte (w : UInt32) (i : Nat) : UInt8 := (w >>> (8 * i).toUInt32).toUInt8

def toBytes (w : UInt32) : List UInt8 := [byte w 0, byte w 1, byte w 2, byte w 3]

def ofBytes (bs : List UInt8) : UInt32 :=
  bs.foldr (fun b w => (w <<< 8) ||| b.toUInt32) 0

def rotateUp (w : UInt32) : UInt32 := (w <<< 1) ||| (w >>> 31)

def rotateDown (w : UInt32) : UInt32 := (w >>> 1) ||| (w <<< 31)

@[simp] theorem toBytes_length (w : UInt32) : (toBytes w).length = 4 := rfl

end Word

abbrev Record (size : Nat) := Vector UInt8 size

namespace Record
variable {size : Nat}

def ofList (size : Nat) (bytes : List UInt8) : Record size := Vector.ofFn fun k => bytes.getD k 0

def split (size count : Nat) (bytes : List UInt8) : List (Record size) :=
  (pieces size count bytes).map (ofList size)

def flatten (records : List (Record size)) : List UInt8 :=
  records.flatMap Vector.toList

def column (k : Fin size) (records : List (Record size)) : List UInt8 :=
  records.map (·.get k)

def ofColumns {n : Nat} (columns : Vector (Vector UInt8 n) size) : List (Record size) :=
  List.ofFn fun i : Fin n => Vector.ofFn fun k => (columns.get k).get i

def word (r : Record size) (j : Fin (size / 4)) : UInt32 :=
  have h : 4 * j.val + 3 < size := by omega
  Word.ofBytes [r[4 * j.val], r[4 * j.val + 1], r[4 * j.val + 2], r[4 * j.val + 3]]

def ofWordColumns {n : Nat} (h : 4 ∣ size) (columns : Vector (Vector UInt32 n) (size / 4)) :
    List (Record size) :=
  List.ofFn fun i : Fin n => Vector.ofFn fun k =>
    have hk : k.val / 4 < size / 4 := by omega
    Word.byte columns[k.val / 4][i] (k.val % 4)

end Record
end VertexPack
