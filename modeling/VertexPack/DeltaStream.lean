import VertexPack.Predictor

/-!
A delta stream holds records as a format byte, blocks, and a tail. The format byte has a
fixed tag in the high nibble and the stream version in the low one. The tail repeats the
first record, from which the first block is predicted; every later block is predicted from
the last record before it. The tail is also what keeps enough bytes behind the last group
for it to be read without further checks.
-/
namespace VertexPack

def FormatByte.maxVersion : UInt8 := 15

structure FormatByte where
  version : UInt8
  version_le : version ≤ FormatByte.maxVersion
  deriving Repr, DecidableEq

namespace FormatByte

def tag : UInt8 := 0xA0

def defaultVersion : UInt8 := 1

/-- The largest version that can be decoded; all of them have one block layout. -/
def maxDecodeVersion : UInt8 := 1

def standard : FormatByte := ⟨defaultVersion, by decide⟩

def raw (f : FormatByte) : UInt8 := tag ||| f.version

def ofVersion (version : UInt8) : Except FrameError FormatByte :=
  if h : version ≤ maxVersion then .ok ⟨version, h⟩ else .error (.invalidVersion version)

def parse (byte : UInt8) : Except FrameError FormatByte :=
  if byte &&& 0xF0 ≠ tag then .error (.invalidTag byte)
  else if byte &&& 0x0F > maxDecodeVersion then .error (.unsupportedVersion (byte &&& 0x0F))
  else .ok ⟨byte &&& 0x0F, UInt8.and_le_right⟩

def write (f : FormatByte) : Writing FrameError Unit :=
  EStateM.adaptExcept .cursor (Writer.appendByte f.raw)

/-- Reads a format byte; a byte that is refused has been read. -/
def read : Reading FrameError FormatByte := do
  let byte ← EStateM.adaptExcept .cursor Reader.byte
  match parse byte with
  | .ok f => pure f
  | .error e => throw e

end FormatByte

namespace DeltaStream

variable {σ : Type}

structure Job where
  format : FormatByte
  size : VertexSize
  records : List (Record size.val)

namespace Job

/-- Checks the record size, the version and the source, in this order. -/
def prepare (version : UInt8) (count size : Nat) (source : List UInt8) :
    Except StreamError Job := do
  let size ← VertexBuffer.size size
  let format ← (FormatByte.ofVersion version).mapError .ofFrame
  let records ← VertexBuffer.records size count source
  pure ⟨format, size, records⟩

def first (job : Job) : Record job.size.val := job.records.headD (Vector.replicate _ 0)

def blocks (job : Job) : List (List (Record job.size.val)) :=
  chunks (Layout.blockLength job.size.val) job.records

end Job

def encodeBlocks {size : Nat} (obs : Observer σ) :
    Nat → Record size → List (List (Record size)) → Encoding σ Unit
  | _, _, [] => pure ()
  | i, p, b :: bs => do
    Encoding.note (.blockStarted i b.length (← Encoding.position))
    Encoding.noting (.blockFailed i) (Block.encode obs p b)
    encodeBlocks obs (i + 1) (b.getLastD p) bs

def Job.encode (job : Job) (obs : Observer σ) : Encoding σ Nat := do
  Encoding.write (Writer.ensure (1 + job.size.val))
  Encoding.writing .ofFrame job.format.write
  encodeBlocks obs 0 job.first job.blocks
  Encoding.writing .ofFrame (Layout.writeTail job.first.toList)
  let total ← Encoding.position
  Encoding.report obs (.stream job.records.length total)
  Encoding.note (.encoded job.records.length job.size.val total job.format.version)
  pure total

def encode (obs : Observer σ) (version : UInt8) (count size : Nat) (source : List UInt8) :
    Encoding σ Nat := do
  let job ← Encoding.ofExcept (Job.prepare version count size source)
  job.encode obs

def bound (count size : Nat) : Except StreamError Nat := (Layout.bound count size).mapError .ofFrame

/-- Reads so many blocks that hold `count` records; the first is predicted from `p`. -/
def decodeBlocks {size : Nat} : Nat → Nat → Record size → Decoding (List (Record size))
  | 0, _, _ => pure []
  | m + 1, count, p => do
    let n := min (Layout.blockLength size) count
    let records ← Block.decode p n
    let more ← decodeBlocks m (count - n) (records.getLastD p)
    pure (records ++ more)

def read (size : VertexSize) (count : Nat) :
    Decoding (FormatByte × List (Record size.val)) := do
  let start ← get
  if ¬ hasAtLeast (1 + size.val) start.rest then
    throw (.truncated (1 + size.val) start.remaining)
  let format ← EStateM.adaptExcept .ofFrame FormatByte.read
  match Layout.tailRecord size.val start with
  | .error e => throw (.ofFrame e)
  | .ok last =>
    let blocks := ceilDiv count (Layout.blockLength size.val)
    let records ← decodeBlocks blocks count (Record.ofList size.val last)
    let left := (← get).remaining
    if left ≠ Layout.tailSize size.val then
      throw (.trailingData (Layout.tailSize size.val) left)
    pure (format, records)

structure Decoded where
  bytes : List UInt8
  notices : List Notice

def Decoded.close (count : Nat) (stream : List UInt8) (size : VertexSize)
    (found : FormatByte × List (Record size.val)) (rest : List UInt8) : Decoded :=
  ⟨Record.flatten found.2 ++ rest, [.decoded count size.val stream.length found.1.version]⟩

def decode (count size : Nat) (stream : List UInt8) : Except StreamError Decoded :=
  VertexBuffer.decode (fun size => read size count) (Decoded.close count stream) count size stream

def decodeInto (destination : List UInt8) (count size : Nat) (stream : List UInt8) :
    Except StreamError Decoded :=
  VertexBuffer.decodeInto (fun size => read size count) (Decoded.close count stream) destination
    count size stream

end DeltaStream
end VertexPack
