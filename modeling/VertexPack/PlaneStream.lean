import VertexPack.Plane
import VertexPack.Session

/-!
A plane stream holds records word column by word column, without a frame. A
column is cut into chunks of thirty-two words, and of each chunk there is a mask
word and the planes that are not zero.
-/
namespace VertexPack

namespace PlaneStream

variable {σ : Type}

def chunkLength : Nat := 32

def chunkCount (n : Nat) : Nat := ceilDiv n chunkLength

def bound (count size : Nat) : Except StreamError Nat := do
  let size ← VertexBuffer.size size
  match Capacity.mul (chunkCount count) (size.val / 4 * (1 + chunkLength) * 4) with
  | some n => pure n
  | none => throw (.frame (.boundOverflow count size.val))

/-- Writes a chunk of folded words, as a whole or not at all. -/
def encodeChunk (words : List UInt32) : Writing CursorError Unit := do
  let planes := Plane.transpose (Plane.ofList words)
  Writer.ensure (4 * (1 + Plane.countOnes (Plane.mask planes)))
  Writer.appendWord (Plane.mask planes)
  (Plane.stored planes).forM Writer.appendWord

def encodeColumn (words : List UInt32) : Writing CursorError Unit :=
  (chunks chunkLength (Plane.foldAll 0 (words.map Word.rotateUp))).forM encodeChunk

structure Job where
  size : VertexSize
  records : List (Record size.val)

def Job.prepare (count size : Nat) (source : List UInt8) : Except StreamError Job := do
  let size ← VertexBuffer.size size
  let records ← VertexBuffer.records size count source
  pure ⟨size, records⟩

def Job.encode (job : Job) : Encoding σ Nat := do
  Encoding.write <| (List.finRange (job.size.val / 4)).forM fun j =>
    encodeColumn (job.records.map (·.word j))
  let total ← Encoding.position
  Encoding.note (.planesEncoded job.records.length job.size.val total)
  pure total

def encode (count size : Nat) (source : List UInt8) : Encoding σ Nat := do
  let job ← Encoding.ofExcept (Job.prepare count size source)
  job.encode

def decodeChunk : Reading CursorError Plane.Square := do
  let mask ← Reader.word
  let planes ← Vector.ofFnM fun r : Fin 32 =>
    if Plane.bit mask r ≠ 0 then Reader.word else pure 0
  pure (Plane.transpose planes)

def decodeChunks : (m : Nat) →
    Reading CursorError { words : List UInt32 // words.length = 32 * m }
  | 0 => pure ⟨[], rfl⟩
  | m + 1 => do
    let words ← decodeChunk
    let ⟨more, h⟩ ← decodeChunks m
    pure ⟨words.toList ++ more, by simp [h]; omega⟩

def decodeColumn (n : Nat) : Reading CursorError (Vector UInt32 n) := do
  let ⟨folded, h⟩ ← decodeChunks (chunkCount n)
  have hn : n ≤ folded.length := by
    rw [h]
    simp only [chunkCount, chunkLength, ceilDiv]
    omega
  let words := (Plane.unfoldAll 0 (folded.take n)).map Word.rotateDown
  pure ⟨words.toArray, by simp [words, Nat.min_eq_left hn]⟩

def read (size : VertexSize) (count : Nat) : Decoding (List (Record size.val)) := do
  let columns ← EStateM.adaptExcept .ofCursor <|
    Vector.ofFnM fun _ : Fin (size.val / 4) => decodeColumn count
  let r ← get
  if ¬ r.isEmpty then throw (.trailingData 0 r.remaining)
  pure (Record.ofWordColumns size.four_dvd columns)

def close (size : VertexSize) (records : List (Record size.val)) (rest : List UInt8) :
    List UInt8 :=
  Record.flatten records ++ rest

def decode (count size : Nat) (stream : List UInt8) : Except StreamError (List UInt8) :=
  VertexBuffer.decode (fun size => read size count) close count size stream

def decodeInto (destination : List UInt8) (count size : Nat) (stream : List UInt8) :
    Except StreamError (List UInt8) :=
  VertexBuffer.decodeInto (fun size => read size count) close destination count size stream

end PlaneStream
end VertexPack
