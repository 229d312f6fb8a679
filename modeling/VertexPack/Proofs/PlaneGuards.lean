import VertexPack.Proofs.Guards
import VertexPack.Proofs.PlaneForm

/-! The decoder of plane streams with guards, chunk by chunk over the destination. It does what
the unguarded decoder does, so no access of the decoder ever leaves its range. -/
namespace VertexPack
open Access Plane

namespace Guarded
variable {ε : Type}

def bit (w : UInt32) (i : Nat) : Guarded ε UInt32 := do
  let moved ← access (wordShiftRight w i)
  pure (moved &&& 1)

def row (words : Square) (r : Fin 32) : Guarded ε UInt32 :=
  (List.finRange 32).foldlM (fun plane (c : Fin 32) => do
    let b ← bit (words.get c) r
    let placed ← access (wordShiftLeft b c)
    pure (plane ||| placed)) 0

def transpose (words : Square) : Guarded ε Square := Vector.ofFnM (row words)

def chunk : Guarded CursorError Square := do
  let mask ← word
  let planes ← Vector.ofFnM fun r : Fin 32 => do
    let b ← bit mask r
    if b ≠ 0 then word else pure 0
  transpose planes

/-- Reads the words that the records of a destination have at offset `k`; the first is a step
from `last`. -/
def words (size k : Nat) (last : UInt32) : List (List UInt8) → Guarded CursorError (List UInt32)
  | [] => pure []
  | b :: bs => do
    let folded ← chunk
    check (0 < size)
    let records := chunks size b
    check (∀ record ∈ records, k + 4 ≤ record.length)
    let found := unfoldAll last (folded.toList.take records.length)
    let more ← words size k (found.getLastD last) bs
    pure (found ++ more)

def planeStream (size : VertexSize) (front : List UInt8) :
    Guarded StreamError (List UInt8) := do
  let stride ← access (Capacity.mul PlaneStream.chunkLength size.val)
  check (0 < stride)
  let count ← access (quotient front.length size.val)
  let columns ← adapt .ofCursor <| Vector.ofFnM fun j : Fin (size.val / 4) => do
    let found ← words size.val (4 * j) 0 (chunks stride front)
    access (exactly count (found.map Word.rotateDown))
  expectLeft 0
  pure (Record.flatten (Record.ofWordColumns size.four_dvd columns))

end Guarded

namespace Guards
variable {ε : Type}

theorem bit_eq (w : UInt32) {i : Nat} (hi : i < 32) :
    (Guarded.bit w i : Guarded ε UInt32) = Pure.pure (bit w i) := by
  rw [Guarded.bit, wordShiftRight_of_lt hi]
  rfl

theorem row_eq (words : Square) (r : Fin 32) :
    (Guarded.row words r : Guarded ε UInt32) = Pure.pure (row words r) := by
  have hstep (plane : UInt32) (c : Fin 32) : (do
      let b ← Guarded.bit (words.get c) r
      let placed ← Guarded.access (wordShiftLeft b c)
      Pure.pure (plane ||| placed) : Guarded ε UInt32) =
        Pure.pure (plane ||| (bit (words.get c) r <<< c.val.toUInt32)) := by
    rw [bit_eq _ r.isLt, pure_bind, wordShiftLeft_of_lt c.isLt]
    rfl
  simp only [Guarded.row, hstep]
  exact List.foldlM_pure

theorem transpose_eq (words : Square) :
    (Guarded.transpose words : Guarded ε Square) = Pure.pure (transpose words) := by
  rw [Guarded.transpose, funext (row_eq words), Vector.ofFnM_pure]
  rfl

theorem chunk : Guards Guarded.chunk PlaneStream.decodeChunk := by
  refine word.bind fun mask => (ofFnM fun r => ?_).bind fun planes => ?_
  · rw [bit_eq _ r.isLt, pure_bind]
    exact ite (fun _ => word) fun _ => pure 0
  · rw [transpose_eq]
    exact pure _

theorem unfoldAll_append (last : UInt32) (xs ys : List UInt32) :
    unfoldAll last (xs ++ ys) =
      unfoldAll last xs ++ unfoldAll ((unfoldAll last xs).getLastD last) ys := by
  induction xs generalizing last with
  | nil => rfl
  | cons x xs ih =>
    rw [List.cons_append, unfoldAll, unfoldAll, ih, List.getLastD_cons, List.cons_append]

/-- The words of a column are those of its first chunk and those behind it. -/
theorem unfoldAll_take (last : UInt32) (folded : Square) (more : List UInt32) (count : Nat) :
    unfoldAll last ((folded.toList ++ more).take count) =
      unfoldAll last (folded.toList.take (min PlaneStream.chunkLength count)) ++
        unfoldAll ((unfoldAll last
          (folded.toList.take (min PlaneStream.chunkLength count))).getLastD last)
          (more.take (count - PlaneStream.chunkLength)) := by
  have hfirst : folded.toList.take (min PlaneStream.chunkLength count) =
      folded.toList.take count := by
    rw [List.take_eq_take_iff, Vector.length_toList, PlaneStream.chunkLength]
    omega
  rw [hfirst, List.take_append, Vector.length_toList, unfoldAll_append, PlaneStream.chunkLength]

theorem room_of_mem {size n k : Nat} {b : List UInt8} (hpos : 0 < size)
    (hb : b.length = n * size) (hk : k + 4 ≤ size) :
    (chunks size b).length = n ∧ ∀ record ∈ chunks size b, k + 4 ≤ record.length := by
  have hlen : (chunks size b).length = n := by rw [chunks_length, hb, ceilDiv_mul n hpos]
  refine ⟨hlen, fun record hrecord => ?_⟩
  obtain ⟨i, hi, rfl⟩ := List.getElem_of_mem hrecord
  have hfull : (i + 1) * size ≤ n * size := Nat.mul_le_mul_right _ (by omega)
  rw [Nat.add_one_mul, Nat.mul_comm i] at hfull
  rw [getElem_chunks, List.length_take, List.length_drop, hb]
  omega

theorem words {size k count : Nat} {front : List UInt8} {last : UInt32} (hk : k + 4 ≤ size)
    (hfront : front.length = count * size) :
    Guards (Guarded.words size k last (chunks (PlaneStream.chunkLength * size) front))
      (PlaneStream.decodeChunks (PlaneStream.chunkCount count) >>= fun folded =>
        Pure.pure (unfoldAll last (folded.1.take count))) := by
  have hsize : 0 < size := by omega
  have hstride : 0 < PlaneStream.chunkLength * size := Nat.mul_pos (by decide) hsize
  induction count using Nat.strongRecOn generalizing last front with
  | _ count ih =>
    by_cases hpos : 0 < count
    · have hne : front ≠ [] := by
        rw [← List.length_pos_iff, hfront]
        exact Nat.mul_pos hpos hsize
      have hfirst : (front.take (PlaneStream.chunkLength * size)).length =
          min PlaneStream.chunkLength count * size := by
        rw [List.length_take, hfront, Nat.mul_min_mul_right]
      have hrest : (front.drop (PlaneStream.chunkLength * size)).length =
          (count - PlaneStream.chunkLength) * size := by
        rw [List.length_drop, hfront, Nat.mul_sub_right_distrib]
      have hcount : PlaneStream.chunkCount count =
          PlaneStream.chunkCount (count - PlaneStream.chunkLength) + 1 :=
        ceilDiv_eq_succ (by decide) hpos
      obtain ⟨hrecords, hroom⟩ := room_of_mem hsize hfirst hk
      rw [chunks_of_ne_nil hstride hne, hcount, Guarded.words, PlaneStream.decodeChunks, bind_assoc]
      refine chunk.bind fun folded => check_bind hsize (check_bind hroom ?_)
      rw [hrecords, bind_assoc]
      refine (ih (count - PlaneStream.chunkLength) (Nat.sub_lt hpos (by decide))
        hrest).bind_map fun more => ?_
      rw [← unfoldAll_take]
      exact pure _
    · obtain rfl : count = 0 := by omega
      rw [Nat.zero_mul, List.length_eq_zero_iff] at hfront
      rw [hfront, chunks_nil hstride]
      exact pure _

theorem planeStream {size : VertexSize} {count : Nat} {front : List UInt8}
    (hfront : front.length = count * size.val) :
    Guards (Guarded.planeStream size front)
      (PlaneStream.read size count >>= fun records => Pure.pure (Record.flatten records)) := by
  have hstride : Capacity.mul PlaneStream.chunkLength size.val =
      some (PlaneStream.chunkLength * size.val) := by
    have hprod : PlaneStream.chunkLength * size.val ≤ 32 * 256 :=
      Nat.mul_le_mul (Nat.le_refl 32) size.le_max
    exact Capacity.checked_eq_some_iff.2 ⟨by unfold Capacity.limit; omega, rfl⟩
  have hpos : 0 < PlaneStream.chunkLength * size.val := Nat.mul_pos (by decide) size.pos
  have hcount : quotient front.length size.val = some count := by
    rw [quotient_of_pos size.pos, hfront, Nat.mul_div_cancel _ size.pos]
  refine access_bind hstride (check_bind hpos (access_bind hcount ?_))
  rw [PlaneStream.read, bind_assoc]
  refine (ofFnM fun j => ?_).adapt.bind fun columns => ?_
  · have hk : 4 * j.val + 4 ≤ size.val := by omega
    refine (words hk hfront).bind_map fun folded => ?_
    have hroom : count ≤ folded.1.length := by
      have hle := le_ceilDiv_mul (a := count) (n := 32) (by decide)
      rw [folded.2, PlaneStream.chunkCount, PlaneStream.chunkLength]
      omega
    have hlen : ((unfoldAll 0 (folded.1.take count)).map Word.rotateDown).length = count := by
      simp [Nat.min_eq_left hroom]
    rw [exactly_of_eq hlen]
    exact pure _
  · intro r _
    refine GuardsAt.expectLeft (fun hleft => ?_) fun hleft => ?_
    · have hempty : r.isEmpty = true := List.isEmpty_iff.2 (List.length_eq_zero_iff.1 hleft)
      change ((if ¬ r.isEmpty = true then _ else _ : Decoding _) >>= _) r = _
      rw [if_neg (not_not.2 hempty)]
      rfl
    · have hempty : ¬ r.isEmpty = true := fun h =>
        hleft (List.length_eq_zero_iff.2 (List.isEmpty_iff.1 h))
      change ((if ¬ r.isEmpty = true then _ else _ : Decoding _) >>= _) r = _
      rw [if_pos hempty]
      rfl

end Guards
end VertexPack
