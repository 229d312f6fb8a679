import VertexPack.Reader
import VertexPack.Writer

/-!
Sizes of a delta stream: records, the widths of groups and the selector header that
names them, blocks, the tail, and a capacity that is always enough. Behind them the
records at the front of a source or a destination, for both stream formats.
-/
namespace VertexPack

inductive Width where
  | one | two | four | eight
  deriving Repr, DecidableEq

namespace Width

def all : List Width := [one, two, four, eight]

def code : Width → Nat
  | one => 0
  | two => 1
  | four => 2
  | eight => 3

def bits : Width → Nat
  | one => 1
  | two => 2
  | four => 4
  | eight => 8

def ofCode (b : UInt8) : Width :=
  match (b &&& 3).toNat with
  | 0 => one
  | 1 => two
  | 2 => four
  | _ => eight

-- Two bits a group, four groups to a header byte, lowest bits first.
def slot (i : Nat) : Nat := i / 4

def shift (i : Nat) : UInt8 := (2 * (i % 4)).toUInt8

def slotBits (w : Width) (i : Nat) : UInt8 := w.code.toUInt8 <<< shift i

def headerSize (n : Nat) : Nat := (n + 3) / 4

def read (header : List UInt8) (i : Nat) : Option Width :=
  header[slot i]?.map fun b => ofCode (b >>> shift i)

end Width

structure VertexSize where
  val : Nat
  pos : 0 < val
  le_max : val ≤ 256
  four_dvd : 4 ∣ val
  deriving Repr, DecidableEq

def VertexSize.ofNat (n : Nat) : Except FrameError VertexSize :=
  if h : 0 < n ∧ n ≤ 256 ∧ 4 ∣ n then .ok ⟨n, h.1, h.2.1, h.2.2⟩
  else .error (.invalidVertexSize n)

namespace Layout

def blockBudget : Nat := 8192

def maxBlockLength : Nat := 256

def groupSize : Nat := 16

/-- The number of bytes that have to be free before a group is written, and present
before one is read; no group is longer. -/
def headroom : Nat := 24

def minTailSize : Nat := 32

def maxVertexSize : Nat := 256

/-- The number of records in a full block: whole groups within the budget. -/
def blockLength (size : Nat) : Nat :=
  min (blockBudget / size / groupSize * groupSize) maxBlockLength

def blockLength? (size : Nat) : Option Nat :=
  if size = 0 then none else some (blockLength size)

def paddedLength (n : Nat) : Nat := ceilDiv n groupSize * groupSize

def groupCount (n : Nat) : Nat := ceilDiv n groupSize

def tailSize (size : Nat) : Nat := max size minTailSize

def fullBlockBytes (size : Nat) : Nat :=
  size * (Width.headerSize (blockLength size / groupSize) + blockLength size)

def bound (count size : Nat) : Except FrameError Nat := do
  let size ← VertexSize.ofNat size
  let total := do
    let blocks ← Capacity.mul (ceilDiv count (blockLength size.val)) (fullBlockBytes size.val)
    Capacity.add blocks (1 + tailSize size.val)
  match total with
  | some n => pure n
  | none => throw (.boundOverflow count size.val)

/-- Writes the tail as a whole or not at all: zeros up to its least size, then the record. -/
def writeTail (first : List UInt8) : Writing FrameError Unit :=
  EStateM.adaptExcept .cursor do
    Writer.ensure (tailSize first.length)
    Writer.appendZeros (minTailSize - first.length)
    Writer.append first

def tailRecord (size : Nat) (r : Reader) : Except FrameError (List UInt8) :=
  (r.tail size).mapError .cursor

end Layout

namespace VertexBuffer

def size (n : Nat) : Except StreamError VertexSize := (VertexSize.ofNat n).mapError .ofFrame

def byteLength (count size : Nat) : Except StreamError Nat :=
  match Capacity.mul count size with
  | some n => .ok n
  | none => .error (.sourceTooSmall Capacity.largest 0)

def records (size : VertexSize) (count : Nat) (source : List UInt8) :
    Except StreamError (List (Record size.val)) := do
  let needed ← byteLength count size.val
  if hasAtLeast needed source then pure (Record.split size.val count source)
  else throw (.sourceTooSmall needed source.length)

def beyond (size : VertexSize) (count : Nat) (destination : List UInt8) :
    Except StreamError (List UInt8) := do
  let needed ← byteLength count size.val
  if hasAtLeast needed destination then pure (destination.drop needed)
  else throw (.outputTooSmall needed destination.length)

section Decode
variable {β : VertexSize → Type} {α : Type} (read : (size : VertexSize) → Decoding (β size))
  (close : (size : VertexSize) → β size → List UInt8 → α)

/-- Reads a stream from its start; `close` is given what was read and the bytes that stand
behind the records. -/
def decodeBefore (rest : List UInt8) (size : VertexSize) (stream : List UInt8) :
    Except StreamError α :=
  match read size (Reader.ofBytes stream) with
  | .error e _ => .error e
  | .ok found _ => .ok (close size found rest)

def decode (count n : Nat) (stream : List UInt8) : Except StreamError α := do
  let size ← VertexBuffer.size n
  let _ ← byteLength count size.val
  decodeBefore read close [] size stream

def decodeInto (destination : List UInt8) (count n : Nat) (stream : List UInt8) :
    Except StreamError α := do
  let size ← VertexBuffer.size n
  let rest ← beyond size count destination
  decodeBefore read close rest size stream

end Decode
end VertexBuffer
end VertexPack
