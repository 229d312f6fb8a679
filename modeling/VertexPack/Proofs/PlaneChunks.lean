import VertexPack.PlaneStream
import VertexPack.Proofs.Planes
import VertexPack.Proofs.Writing

/-! The chunks of a plane stream as data. A chunk is read from exactly the strings of this
shape, which may store planes that are zero; the writer makes the one that stores none. -/
namespace VertexPack.PlaneStream
open Plane Word

/-- A chunk as it stands in a stream: a mask, and a plane wherever the mask has a bit. -/
structure Chunk where
  mask : UInt32
  planes : Square
  absent : ∀ r : Fin 32, bit mask r = 0 → planes.get r = 0

namespace Chunk
variable {c : Chunk}

def words (c : Chunk) : Square := transpose c.planes

def planeBytes (c : Chunk) (r : Fin 32) : List UInt8 :=
  if bit c.mask r = 0 then [] else toBytes (c.planes.get r)

def bytes (c : Chunk) : List UInt8 := toBytes c.mask ++ (List.ofFn c.planeBytes).flatten

theorem ext_of_eq {c d : Chunk} (hmask : c.mask = d.mask) (hplanes : c.planes = d.planes) :
    c = d := by
  cases c
  cases d
  simp_all

def Tight (c : Chunk) : Prop := ∀ r : Fin 32, bit c.mask r ≠ 0 → c.planes.get r ≠ 0

theorem Tight.bit_mask (h : c.Tight) (r : Fin 32) : bit c.mask r = 0 ↔ c.planes.get r = 0 := by
  constructor
  · exact c.absent r
  · intro hr
    by_contra hbit
    exact h r hbit hr

theorem flatMap_filter_ne_zero (ws : List UInt32) :
    (ws.filter (· ≠ 0)).flatMap toBytes =
      (ws.map fun w => if w = 0 then [] else toBytes w).flatten := by
  induction ws with
  | nil => rfl
  | cons w ws ih =>
    by_cases hw : w = 0
    · simp_all
    · simp_all

theorem Tight.stored_flatMap (h : c.Tight) :
    (stored c.planes).flatMap toBytes = (List.ofFn c.planeBytes).flatten := by
  have hplane : c.planeBytes =
      fun r => if c.planes.get r = 0 then [] else toBytes (c.planes.get r) := by
    funext r
    simp only [planeBytes, h.bit_mask]
  rw [stored, flatMap_filter_ne_zero, toList_eq_ofFn, List.map_ofFn, hplane]
  rfl

theorem Tight.bytes_length (h : c.Tight) : c.bytes.length = 4 * (1 + (stored c.planes).length) := by
  rw [bytes, ← h.stored_flatMap, List.length_append, toBytes_length, List.length_flatMap]
  simp
  omega

def ofPlanes (planes : Square) : Chunk where
  mask := Plane.mask planes
  planes := planes
  absent r := (bit_mask_eq_zero_iff planes r).1

theorem tight_ofPlanes (planes : Square) : (ofPlanes planes).Tight := by
  intro r hr
  exact (bit_mask_eq_zero_iff planes r).not.1 hr

end Chunk

theorem decodeChunk_reads {h : Nat} :
    Reads h decodeChunk fun words bs => ∃ c : Chunk, words = c.words ∧ bs = c.bytes := by
  have plane (mask : UInt32) (r : Fin 32) :
      Reads h (if bit mask r ≠ 0 then Reader.word else pure 0) fun w bs =>
        if bit mask r = 0 then w = 0 ∧ bs = [] else bs = toBytes w := by
    by_cases hr : bit mask r = 0
    · simp only [hr, ne_eq, not_true_eq_false, if_false, if_true]
      exact Reads.pure _
    · simp only [hr, ne_eq, not_false_eq_true, if_false, if_true]
      exact Reads.word
  refine (Reads.word.bind fun mask =>
    (Reads.ofFnM (plane mask)).map (f := transpose)).congr fun words bs => ?_
  constructor
  · intro hform
    obtain ⟨mask, u, v, rfl, ⟨planes, ⟨parts, hparts, rfl⟩, rfl⟩, rfl⟩ := hform
    have habsent (r : Fin 32) (hr : bit mask r = 0) : planes.get r = 0 := by
      have hpart := hparts r
      rw [if_pos hr] at hpart
      exact hpart.1
    refine ⟨⟨mask, planes, habsent⟩, rfl, ?_⟩
    rw [Chunk.bytes]
    congr 3
    funext r
    have hpart := hparts r
    unfold Chunk.planeBytes
    split at hpart
    · rw [if_pos ‹_›]
      exact hpart.2
    · rw [if_neg ‹_›]
      exact hpart
  · intro hform
    obtain ⟨c, rfl, rfl⟩ := hform
    refine ⟨c.mask, _, _, rfl, ⟨c.planes, ⟨c.planeBytes, fun r => ?_, rfl⟩, rfl⟩, rfl⟩
    unfold Chunk.planeBytes
    split
    · exact ⟨c.absent r ‹_›, rfl⟩
    · rfl

theorem encodeChunk_writes (words : List UInt32) :
    Writes (Chunk.ofPlanes (transpose (ofList words))).bytes (encodeChunk words) := by
  rw [encodeChunk, countOnes_mask]
  generalize transpose (ofList words) = planes
  have htight := Chunk.tight_ofPlanes planes
  apply Writes.ensure_bind (Nat.le_of_eq htight.bytes_length.symm)
  rw [Chunk.bytes, ← htight.stored_flatMap]
  exact (Writes.append _).bind (Writes.forM (fun w => Writes.append (toBytes w)) _)

end VertexPack.PlaneStream
