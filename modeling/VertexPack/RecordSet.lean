import VertexPack.DeltaStream
import VertexPack.Failure
import VertexPack.PlaneStream

/-!
A record set is raw input: bytes, the number of bytes in a record, and the number of
records. It is encoded in either format, over a destination that is always as long as
its capacity bound.
-/
namespace VertexPack

inductive StreamFormat where
  | delta | planes
  deriving Repr, DecidableEq

structure RecordSet where
  data : List UInt8
  stride : Nat
  count : Nat
  deriving Repr, DecidableEq

namespace RecordSet

/-- The whole records of an input; bytes left over at its end are dropped with a notice. -/
def ofBytes (input : List UInt8) (stride : Nat) : Work RecordSet := do
  if stride = 0 then throw .strideZero
  let count := input.length / stride
  let extra := input.length % stride
  if extra ≠ 0 then Work.note [.partialRecord extra count stride]
  pure ⟨input.take (count * stride), stride, count⟩

def project (set : RecordSet) (kept : Nat) : Except Failure RecordSet :=
  if 0 < kept ∧ kept ≤ set.stride then
    let records := pieces set.stride (set.data.length / set.stride) set.data
    .ok ⟨records.flatMap (·.take kept), kept, set.count⟩
  else .error (.keptOutside kept set.stride)

variable {σ : Type}

def runEncoder (task : Task) (capacity : Nat) (observed : σ) (encoder : Encoding σ Nat) :
    Work (List UInt8 × σ) := do
  match encoder (Session.start (List.replicate capacity 0) observed) with
  | .ok _ s =>
    Work.note s.notices
    pure (s.writer.written.toList, s.observed)
  | .error e s =>
    Work.note s.notices
    throw (.during task e)

/-- Encodes the records while an observer listens; only delta streams are observed. -/
def encodeObserved (set : RecordSet) (format : StreamFormat) (version : UInt8)
    (obs : Observer σ) (observed : σ) : Work (List UInt8 × σ) := do
  match format with
  | .delta =>
    let capacity ← Work.ofExcept .capacity (DeltaStream.bound set.count set.stride)
    Work.allocate capacity
    let job ← Work.ofExcept (.during .encodeBuffer)
      (DeltaStream.Job.prepare version set.count set.stride set.data)
    runEncoder .encodeBuffer capacity observed (job.encode obs)
  | .planes =>
    let capacity ← Work.ofExcept .capacity (PlaneStream.bound set.count set.stride)
    Work.allocate capacity
    let job ← Work.ofExcept (.during .encodePlanes)
      (PlaneStream.Job.prepare set.count set.stride set.data)
    runEncoder .encodePlanes capacity observed job.encode

def encode (set : RecordSet) (format : StreamFormat) (version : UInt8) : Work (List UInt8) := do
  return (← set.encodeObserved format version Observer.silent ()).1

def decode (stream : List UInt8) (stride count : Nat) (format : StreamFormat) :
    Work (List UInt8) := do
  match Capacity.mul count stride with
  | none => throw .countOverflow
  | some bytes =>
    Work.allocate bytes
    match format with
    | .delta =>
      let decoded ← Work.ofExcept (.during .decodeBuffer) (DeltaStream.decode count stride stream)
      Work.note decoded.notices
      pure decoded.bytes
    | .planes =>
      Work.ofExcept (.during .decodePlanes) (PlaneStream.decode count stride stream)

end RecordSet
end VertexPack
