import VertexPack.Channel

/-!
A block is a run of at most 256 records, stored channel by channel. Each channel is
predicted from the same byte of the record before the block; a predictor carries that
record from block to block, and moves on only when a whole block has been written or read.
-/
namespace VertexPack

namespace Block
variable {σ : Type} {size : Nat}

def count (length size : Nat) : Except StreamError Nat :=
  let n := length / size
  if n = 0 ∨ n > Layout.maxBlockLength then
    .error (.invalidBlockLength n Layout.maxBlockLength)
  else if length % size ≠ 0 then .error (.sourceTooSmall ((n + 1) * size) length)
  else .ok n

def encode (obs : Observer σ) (p : Record size) (records : List (Record size)) :
    Encoding σ Unit :=
  (List.finRange size).forM fun k => Channel.encode obs k (p.get k) (Record.column k records)

def decode (p : Record size) (n : Nat) : Decoding (List (Record size)) := do
  let columns ← Vector.ofFnM fun k : Fin size => Channel.decode (p.get k) n
  pure (Record.ofColumns columns)

end Block

/-- The record that the next block is predicted from. -/
structure Predictor where
  size : Nat
  record : Record size
  size_pos : 0 < size
  size_le : size ≤ 256

namespace Predictor

def ofBytes (bytes : List UInt8) : Except StreamError Predictor :=
  if h : 0 < bytes.length ∧ bytes.length ≤ 256 then
    .ok ⟨bytes.length, ⟨bytes.toArray, by simp⟩, h.1, h.2⟩
  else .error (.invalidVertexSize bytes.length)

def bytes (p : Predictor) : List UInt8 := p.record.toList

def advance (p : Predictor) (records : List (Record p.size)) : Predictor :=
  { p with record := records.getLastD p.record }

def encodeBlock {σ : Type} (p : Predictor) (obs : Observer σ) (block : List UInt8) :
    Encoding σ Predictor := do
  let n ← Encoding.ofExcept (Block.count block.length p.size)
  let records := Record.split p.size n block
  Block.encode obs p.record records
  pure (p.advance records)

def decodeBlock (p : Predictor) (length : Nat) : Decoding (List UInt8 × Predictor) := do
  match Block.count length p.size with
  | .error e => throw e
  | .ok n =>
    let records ← Block.decode p.record n
    pure (Record.flatten records, p.advance records)

end Predictor
end VertexPack
