import VertexPack.Delta
import VertexPack.Group
import VertexPack.Session

/-!
One channel of a block: the bytes that consecutive records have at one offset.
It is stored as a selector header, two bits a group, followed by the groups of
its deltas in order. Before every group there has to be room for the longest
group there is, on writing and on reading.
-/
namespace VertexPack

namespace Channel

variable {σ : Type}

/-- Writes the groups from number `i` on and enters their widths into the header that
starts at offset `header`. -/
def encodeFrom (obs : Observer σ) (channel header : Nat) : Nat → List Group → Encoding σ Unit
  | _, [] => pure ()
  | i, g :: gs => do
    Encoding.write (Writer.ensure Layout.headroom)
    let (width, size) := g.select
    Encoding.write (Writer.orAt (header + Width.slot i) (width.slotBits i))
    match g.pack? width with
    | some bs => Encoding.write (Writer.append bs)
    | none => pure ()
    Encoding.report obs (.group channel width size)
    encodeFrom obs channel header (i + 1) gs

def encodeGroups (obs : Observer σ) (channel : Nat) (groups : List Group) : Encoding σ Unit := do
  let size := Width.headerSize groups.length
  let header ← Encoding.write (Writer.reserve size)
  encodeFrom obs channel header 0 groups
  Encoding.report obs (.header channel size)

def decodeGroups (n : Nat) : Decoding (Vector Group n) :=
  EStateM.adaptExcept .ofCursor do
    let ⟨header, _⟩ ← Reader.take (Width.headerSize n)
    Vector.ofFnM fun i => do
      Reader.ensure Layout.headroom
      Group.unpack (.ofCode (header.getD (Width.slot i) 0 >>> Width.shift i))

/-- The bits in which every value agrees with `p`. -/
def sharedBits (p : UInt8) (values : List UInt8) : UInt8 :=
  values.foldl (fun bits v => bits &&& ~~~(v ^^^ p)) 0xFF

/-- For each run of values, the bits shared with the value before the run, and the number
of values. -/
def consistency (p : UInt8) : List (List UInt8) → List (UInt8 × Nat)
  | [] => []
  | run :: runs => (sharedBits p run, run.length) :: consistency (run.getLastD p) runs

def encode (obs : Observer σ) (channel : Nat) (p : UInt8) (column : List UInt8) :
    Encoding σ Unit := do
  let start ← Encoding.position
  if obs.isEnabled (← get).observed then
    (consistency p (chunks Layout.groupSize column)).forM fun run =>
      Encoding.report obs (.consistency channel run.1 run.2)
  encodeGroups obs channel (Group.split (Delta.encode p column))
  let stop ← Encoding.position
  Encoding.report obs (.channel channel (stop - start))

def deltas (n : Nat) (groups : Vector Group (Layout.groupCount n)) : List UInt8 :=
  (groups.toList.flatMap Vector.toList).take n

theorem deltas_length (n : Nat) (groups : Vector Group (Layout.groupCount n)) :
    (deltas n groups).length = n := by
  have h : n ≤ Layout.groupCount n * 16 := by
    simp only [Layout.groupCount, Layout.groupSize, ceilDiv]
    omega
  simp [deltas, List.length_flatMap, List.map_const', Nat.min_eq_left h]

def decode (p : UInt8) (n : Nat) : Decoding (Vector UInt8 n) := do
  let groups ← decodeGroups (Layout.groupCount n)
  pure ⟨(Delta.decode p (deltas n groups)).toArray, by simp [deltas_length]⟩

end Channel
end VertexPack
