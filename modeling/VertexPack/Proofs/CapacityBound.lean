import VertexPack.Proofs.Outcome
import Mathlib.Algebra.Order.BigOperators.Group.Finset
import Mathlib.Tactic.Ring

/-! The capacity bound. No stream is longer, and where the records fill whole blocks some
stream is as long: records that alternate between two far values leave no group a shorter
form than its sixteen bytes. -/
namespace VertexPack

namespace Layout

theorem groupCount_le {count q size : Nat} (h : count ≤ q * blockLength size) :
    groupCount count * groupSize ≤ q * blockLength size := by
  rw [← Nat.div_mul_cancel (groupSize_dvd_blockLength size), ← Nat.mul_assoc] at h ⊢
  exact Nat.mul_le_mul_right groupSize (ceilDiv_le_of_le_mul (by decide) h)

theorem groupCount_mul (q size : Nat) :
    groupCount (q * blockLength size) * groupSize = q * blockLength size :=
  Nat.le_antisymm (groupCount_le (Nat.le_refl _)) (le_ceilDiv_mul (by decide))

/-- The bytes of so many full blocks whose groups are all verbatim, the format byte, and
the tail. -/
def worstLength (count size : Nat) : Nat :=
  ceilDiv count (blockLength size) * fullBlockBytes size + (1 + tailSize size)

theorem isBound : IsBound bound worstLength .boundOverflow where
  eq_ite count size := by
    have hvalid : 0 < size.val ∧ size.val ≤ 256 ∧ 4 ∣ size.val := size.valid
    rw [bound, VertexSize.ofNat, dif_pos hvalid]
    dsimp only [Bind.bind, Except.bind]
    rw [Capacity.mul_bind_add]
    exact Capacity.outcome_checked _ _
  of_not_valid count n h := by
    have hinvalid : ¬ (0 < n ∧ n ≤ 256 ∧ 4 ∣ n) := h
    refine ⟨.invalidVertexSize n, ?_⟩
    rw [bound, VertexSize.ofNat, dif_neg hinvalid]
    rfl

theorem blockLength_mul_le (size : Nat) : blockLength size * size ≤ blockBudget := by
  have hgroups : blockLength size ≤ blockBudget / size :=
    Nat.le_trans (Nat.min_le_left _ _) (Nat.div_mul_le_self _ _)
  exact Nat.le_trans (Nat.mul_le_mul_right size hgroups) (Nat.div_mul_le_self _ _)

/-- Selector headers take a byte for two groups at most, and one block at most is not full. -/
theorem worstLength_le (count : Nat) (size : VertexSize) :
    32 * worstLength count size.val ≤ 33 * (count * size.val) + 33 * blockBudget + 32 * 257 := by
  have hB := blockLength_pos size
  have hblocks : ceilDiv count (blockLength size.val) * blockLength size.val ≤
      count + blockLength size.val := by
    have h := Nat.div_mul_le_self (count + blockLength size.val - 1) (blockLength size.val)
    unfold ceilDiv
    omega
  -- A full block has two groups or more, so a header takes one byte for two of them at most.
  have hheader :
      32 * Width.headerSize (blockLength size.val / groupSize) ≤ blockLength size.val := by
    have hle := le_blockLength size
    have hdvd := Nat.div_mul_cancel (groupSize_dvd_blockLength size.val)
    unfold groupSize at hle hdvd
    unfold Width.headerSize groupSize
    omega
  have htail : tailSize size.val ≤ 256 := Nat.max_le.2 ⟨size.le_max, by decide⟩
  have hbudget := blockLength_mul_le size.val
  have hfull : 32 * fullBlockBytes size.val ≤ 33 * (blockLength size.val * size.val) := by
    rw [fullBlockBytes, Nat.mul_left_comm, Nat.mul_comm (blockLength size.val),
      Nat.mul_left_comm 33]
    exact Nat.mul_le_mul_left _ (by omega)
  calc 32 * worstLength count size.val
      ≤ ceilDiv count (blockLength size.val) * (32 * fullBlockBytes size.val) + 32 * 257 := by
        rw [worstLength, Nat.mul_left_comm]
        omega
    _ ≤ ceilDiv count (blockLength size.val) * (33 * (blockLength size.val * size.val)) +
          32 * 257 :=
        Nat.add_le_add_right (Nat.mul_le_mul_left _ hfull) _
    _ = 33 * (ceilDiv count (blockLength size.val) * blockLength size.val * size.val) +
          32 * 257 := by ring
    _ ≤ 33 * ((count + blockLength size.val) * size.val) + 32 * 257 := by
        have h := Nat.mul_le_mul_right size.val hblocks
        omega
    _ ≤ 33 * (count * size.val) + 33 * blockBudget + 32 * 257 := by
        rw [Nat.add_mul]
        omega

end Layout

namespace DeltaStream
open Layout
variable {count size q b : Nat} {source : List UInt8}

theorem isBound :
    IsBound bound worstLength fun count size => .frame (.boundOverflow count size) where
  eq_ite count size := by
    rw [bound, Layout.isBound.eq_ite]
    split
    · rfl
    · rfl
  of_not_valid count n h := by
    obtain ⟨e, he⟩ := Layout.isBound.of_not_valid count h
    exact ⟨.ofFrame e, by rw [bound, he]; rfl⟩

theorem headerBytes_mono (size : Nat) {n m : Nat} (h : n ≤ m) :
    headerBytes size n ≤ headerBytes size m := by
  have hgroups : groupCount n ≤ groupCount m := ceilDiv_mono (by decide) h
  exact Nat.mul_le_mul_left size (Nat.div_le_div_right (Nat.add_le_add_right hgroups 3))

theorem fullBlockBytes_eq (size : Nat) :
    fullBlockBytes size = headerBytes size (blockLength size) + size * blockLength size := by
  have hgroups := groupCount_mul 1 size
  rw [Nat.one_mul] at hgroups
  have hcount : groupCount (blockLength size) = blockLength size / groupSize :=
    (Nat.div_eq_of_eq_mul_left (by decide) hgroups.symm).symm
  rw [headerBytes, hcount, fullBlockBytes, Nat.mul_add]

theorem mul_le_worstLength (hB : 0 < blockLength size) : count * size ≤ worstLength count size := by
  have hcount := Nat.mul_le_mul_right size (le_ceilDiv_mul (a := count) hB)
  have hblock : blockLength size * size ≤ fullBlockBytes size := by
    rw [fullBlockBytes_eq, Nat.mul_comm]
    exact Nat.le_add_left _ _
  have hblocks := Nat.mul_le_mul_left (ceilDiv count (blockLength size)) hblock
  rw [← Nat.mul_assoc] at hblocks
  rw [worstLength]
  omega

theorem streamLength_le (hB : 0 < blockLength size) :
    streamLength count size source ≤ worstLength count size := by
  have hheaders : ∑ b ∈ Finset.range (ceilDiv count (blockLength size)),
      headerBytes size (min (blockLength size) (count - blockLength size * b)) ≤
      ceilDiv count (blockLength size) * headerBytes size (blockLength size) := by
    have h := Finset.sum_le_card_nsmul (Finset.range (ceilDiv count (blockLength size))) _ _
      fun b _ => headerBytes_mono size
        (Nat.min_le_left (blockLength size) (count - blockLength size * b))
    rwa [Finset.card_range, smul_eq_mul] at h
  have hcolumn (k : Nat) :
      ∑ j ∈ Finset.range (groupCount count), (groupAt count size source k j).cost ≤
        ceilDiv count (blockLength size) * blockLength size := by
    have h := Finset.sum_le_card_nsmul (Finset.range (groupCount count)) _ _
      fun j _ => (groupAt count size source k j).cost_le
    rw [Finset.card_range, smul_eq_mul] at h
    exact Nat.le_trans h (groupCount_le (le_ceilDiv_mul hB))
  have hcolumns := Finset.sum_le_card_nsmul (Finset.range size) _ _ fun k _ => hcolumn k
  rw [Finset.card_range, smul_eq_mul] at hcolumns
  have hblocks : ceilDiv count (blockLength size) * fullBlockBytes size =
      ceilDiv count (blockLength size) * headerBytes size (blockLength size) +
        size * (ceilDiv count (blockLength size) * blockLength size) := by
    rw [fullBlockBytes_eq]
    ring
  rw [streamLength, worstLength]
  omega

variable {σ : Type} {obs : Observer σ} {observed : σ}

end DeltaStream
end VertexPack
