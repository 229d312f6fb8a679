import VertexPack.Proofs.Guards
import VertexPack.Proofs.CapacityBound
import VertexPack.Proofs.PlaneLength

/-! The capacity bounds with guards, operation by operation. No operation leaves the sizes or
divides by zero but the last ones, which are checked; so a bound is exact, and it is refused only
where it is no size itself. Records that fill less than half of the addresses never come to
that. -/
namespace VertexPack

theorem ceilDiv_of_mod_pos {a n : Nat} (hn : 0 < n) (h : 0 < a % n) : ceilDiv a n = a / n + 1 := by
  have hparts := Nat.div_add_mod' a n
  have hlt := Nat.mod_lt a hn
  apply Nat.le_antisymm
  · apply ceilDiv_le_of_le_mul hn
    rw [Nat.succ_mul]
    omega
  · have hle := le_ceilDiv_mul (a := a) hn
    exact Nat.lt_of_mul_lt_mul_right (a := n) (by omega)

theorem ceilDiv_of_mod_eq_zero {a n : Nat} (hn : 0 < n) (h : a % n = 0) : ceilDiv a n = a / n := by
  have hparts := Nat.div_add_mod' a n
  rw [h, Nat.add_zero] at hparts
  rw [← hparts, ceilDiv_mul _ hn, hparts]

namespace Access

def quotientUp (a b : Nat) : Option Nat := do
  let q ← quotient a b
  let r ← remainder a b
  if 0 < r then Capacity.add q 1 else some q

/-- The number with its bits below a power of two cleared, through the complement of a mask. -/
def clearBelow (a power : Nat) : Option Nat := do
  let low ← difference power 1
  let high ← difference Capacity.largest low
  some (a &&& high)

theorem add_of_lt {a b : Nat} (h : a + b < Capacity.limit) : Capacity.add a b = some (a + b) :=
  Capacity.checked_eq_some_iff.2 ⟨h, rfl⟩

theorem mul_of_lt {a b : Nat} (h : a * b < Capacity.limit) : Capacity.mul a b = some (a * b) :=
  Capacity.checked_eq_some_iff.2 ⟨h, rfl⟩

theorem quotientUp_of_lt {a b : Nat} (hb : 1 < b) (ha : a < Capacity.limit) :
    quotientUp a b = some (ceilDiv a b) := by
  have hpos : 0 < b := Nat.lt_of_succ_lt hb
  have hq : a / b + 1 < Capacity.limit := by
    have hle : a / b ≤ a / 2 := Nat.div_le_div_left hb (by decide)
    unfold Capacity.limit at ha ⊢
    omega
  rw [quotientUp, quotient_of_pos hpos, remainder_of_pos hpos]
  dsimp only [Option.bind_eq_bind, Option.bind_some]
  split
  · rename_i hr
    rw [add_of_lt hq, ceilDiv_of_mod_pos hpos hr]
  · rename_i hr
    rw [ceilDiv_of_mod_eq_zero hpos (Nat.eq_zero_of_not_pos hr)]

theorem clearBelow_groupSize {a : Nat} (ha : a < Capacity.limit) :
    clearBelow a Layout.groupSize = some (a / Layout.groupSize * Layout.groupSize) := by
  have hmask : a &&& (2 ^ 64 - (15 + 1)) = a / 16 * 16 := by
    apply Nat.eq_of_testBit_eq
    intro i
    have hlow : Nat.testBit 15 i = decide (i < 4) := Nat.testBit_two_pow_sub_one 4 i
    have hshift : a / 16 * 16 = (a >>> 4) <<< 4 := by
      rw [Nat.shiftLeft_eq, Nat.shiftRight_eq_div_pow]
    rw [Nat.testBit_and, Nat.testBit_two_pow_sub_succ (by decide), hlow, hshift,
      Nat.testBit_shiftLeft, Nat.testBit_shiftRight]
    -- The mask has the bits from 4 to 63, and a size has none above these.
    by_cases hi : 4 ≤ i
    · by_cases htop : i < 64
      · simp [hi, htop, Nat.not_lt.2 hi]
      · have hpow : 2 ^ 64 ≤ 2 ^ i := Nat.pow_le_pow_right Nat.two_pos (Nat.le_of_not_lt htop)
        have hbit : a.testBit i = false := Nat.testBit_lt_two_pow (Nat.lt_of_lt_of_le ha hpow)
        simp [hi, hbit]
    · simp [hi, Nat.lt_of_not_le hi]
  exact congrArg some hmask

end Access

namespace Fault
variable {ε α β : Type}

def ofOption : Option α → Except (Fault ε) α
  | some a => .ok a
  | none => .error .outOfRange

theorem ofOption_some_bind (a : α) (next : α → Except (Fault ε) β) :
    (ofOption (some a) >>= next) = next a := rfl

theorem mapError_ok_bind (a : α) (next : α → Except (Fault ε) β) :
    ((Except.ok a).mapError error >>= next) = next a := rfl

theorem ok_bind (a : α) (next : α → Except ε β) : (Except.ok a >>= next) = next a := rfl

end Fault

namespace Layout
open Access Fault
variable {count size : Nat}

def guardedBlockLength (size : Nat) : Option Nat := do
  let fitting ← quotient blockBudget size
  let whole ← clearBelow fitting groupSize
  some (if whole < maxBlockLength then whole else maxBlockLength)

def guardedHeaderSize (groups : Nat) : Option Nat := do
  let filled ← Capacity.add groups 3
  quotient filled 4

def guardedBlockBytes (size blockLength : Nat) : Option Nat := do
  let groups ← quotient blockLength groupSize
  let header ← guardedHeaderSize groups
  let column ← Capacity.add header blockLength
  Capacity.mul size column

/-- The capacity bound, with every operation guarded: only a last product or sum may be no size, and
is then an error; another operation that leaves its range is a fault. -/
def guardedBound (count size : Nat) : Except (Fault FrameError) Nat := do
  let size ← (VertexSize.ofNat size).mapError Fault.error
  let blockLength ← ofOption (guardedBlockLength size.val)
  let blocks ← ofOption (quotientUp count blockLength)
  let blockBytes ← ofOption (guardedBlockBytes size.val blockLength)
  match Capacity.mul blocks blockBytes with
  | none => throw (.error (.boundOverflow count size.val))
  | some bytes =>
    let frame ← ofOption (Capacity.add 1 (tailSize size.val))
    match Capacity.add bytes frame with
    | none => throw (.error (.boundOverflow count size.val))
    | some total => pure total

theorem guardedBlockLength_eq (size : VertexSize) :
    guardedBlockLength size.val = some (blockLength size.val) := by
  have hfit : blockBudget / size.val < Capacity.limit :=
    Nat.lt_of_le_of_lt (Nat.div_le_self _ _) (by decide)
  rw [guardedBlockLength, quotient_of_pos size.pos]
  dsimp only [Option.bind_eq_bind, Option.bind_some]
  rw [clearBelow_groupSize hfit, blockLength, Nat.min_def]
  dsimp only [Option.bind_some]
  congr 1
  split <;> split <;> omega

theorem guardedBlockBytes_eq (size : VertexSize) :
    guardedBlockBytes size.val (blockLength size.val) = some (fullBlockBytes size.val) := by
  have hgroups : blockLength size.val / groupSize ≤ 16 :=
    Nat.div_le_of_le_mul (Nat.min_le_right _ _)
  have hlength : blockLength size.val ≤ 256 := Nat.min_le_right _ _
  have hheader : Width.headerSize (blockLength size.val / groupSize) ≤ 4 := by
    unfold Width.headerSize
    omega
  have hbytes : fullBlockBytes size.val ≤ 256 * 260 :=
    Nat.mul_le_mul size.le_max (Nat.add_le_add hheader hlength)
  have hlimit : 256 * 260 < Capacity.limit := by decide
  have hfilled : blockLength size.val / groupSize + 3 < Capacity.limit := by omega
  have hcolumn : Width.headerSize (blockLength size.val / groupSize) + blockLength size.val <
    Capacity.limit := by omega
  rw [guardedBlockBytes, quotient_of_pos (by decide)]
  dsimp only [Option.bind_eq_bind, Option.bind_some]
  rw [guardedHeaderSize, add_of_lt hfilled]
  dsimp only [Option.bind_eq_bind, Option.bind_some]
  rw [quotient_of_pos (by decide), ← Width.headerSize]
  dsimp only [Option.bind_some]
  rw [add_of_lt hcolumn]
  exact mul_of_lt (Nat.lt_of_le_of_lt hbytes hlimit)

theorem guardedBound_eq (size : VertexSize) (hcount : count < Capacity.limit) :
    guardedBound count size.val = (bound count size.val).mapError .error := by
  have hvalid : 0 < size.val ∧ size.val ≤ 256 ∧ 4 ∣ size.val := size.valid
  have hlength : 1 < blockLength size.val := Nat.lt_of_lt_of_le (by decide) (le_blockLength size)
  have hframe : 1 + tailSize size.val < Capacity.limit := by
    have htail : tailSize size.val ≤ 256 := Nat.max_le.2 ⟨size.le_max, by decide⟩
    unfold Capacity.limit
    omega
  rw [guardedBound, bound, VertexSize.ofNat, dif_pos hvalid]
  simp only [ok_bind, mapError_ok_bind, guardedBlockLength_eq, quotientUp_of_lt hlength hcount,
    guardedBlockBytes_eq, add_of_lt hframe, ofOption_some_bind]
  cases hblocks : Capacity.mul (ceilDiv count (blockLength size.val)) (fullBlockBytes size.val) with
  | none => rfl
  | some bytes =>
    dsimp only [Option.bind_eq_bind, Option.bind_some]
    cases htotal : Capacity.add bytes (1 + tailSize size.val) with
    | none => rfl
    | some total => rfl

theorem worstLength_eq (count size : Nat) : worstLength count size = 1 + tailSize size +
    ceilDiv count (blockLength size) * size *
      (ceilDiv (blockLength size / groupSize) 4 + blockLength size) := by
  rw [worstLength, fullBlockBytes, Nat.mul_assoc, Nat.add_comm]
  rfl

theorem worstLength_mono_count {fewer : Nat} (size : VertexSize) (h : fewer ≤ count) :
    worstLength fewer size.val ≤ worstLength count size.val :=
  Nat.add_le_add_right (Nat.mul_le_mul_right _ (ceilDiv_mono (blockLength_pos size) h)) _

end Layout

namespace PlaneStream
open Access Fault
variable {count : Nat}

def guardedChunkBytes (size : Nat) : Option Nat := do
  let columns ← quotient size 4
  let words ← Capacity.add 1 chunkLength
  let planes ← Capacity.mul columns words
  Capacity.mul planes 4

def guardedBound (count size : Nat) : Except (Fault StreamError) Nat := do
  let size ← (VertexBuffer.size size).mapError Fault.error
  let chunks ← ofOption (quotientUp count chunkLength)
  let chunkBytes ← ofOption (guardedChunkBytes size.val)
  match Capacity.mul chunks chunkBytes with
  | none => throw (.error (.frame (.boundOverflow count size.val)))
  | some total => pure total

theorem guardedChunkBytes_eq (size : VertexSize) :
    guardedChunkBytes size.val = some (size.val / 4 * (1 + chunkLength) * 4) := by
  have hcolumns : size.val / 4 ≤ 64 := Nat.div_le_of_le_mul size.le_max
  have hplanes : size.val / 4 * (1 + chunkLength) < Capacity.limit :=
    Nat.lt_of_le_of_lt (Nat.mul_le_mul_right _ hcolumns) (by decide)
  have hbytes : size.val / 4 * (1 + chunkLength) * 4 < Capacity.limit :=
    Nat.lt_of_le_of_lt (Nat.mul_le_mul_right 4 (Nat.mul_le_mul_right _ hcolumns)) (by decide)
  rw [guardedChunkBytes, quotient_of_pos (by decide), add_of_lt (by decide)]
  dsimp only [Option.bind_eq_bind, Option.bind_some]
  rw [mul_of_lt hplanes]
  exact mul_of_lt hbytes

theorem guardedBound_eq (size : VertexSize) (hcount : count < Capacity.limit) :
    guardedBound count size.val = (bound count size.val).mapError .error := by
  rw [guardedBound, bound, VertexBuffer.size_val]
  simp only [ok_bind, mapError_ok_bind, quotientUp_of_lt (by decide : 1 < chunkLength) hcount,
    guardedChunkBytes_eq, ofOption_some_bind, chunkCount]
  cases htotal : Capacity.mul (ceilDiv count chunkLength)
    (size.val / 4 * (1 + chunkLength) * 4) with
  | none => rfl
  | some total => rfl

theorem worstLength_eq {size : Nat} (count : Nat) (h : 4 ∣ size) :
    worstLength count size = ceilDiv count chunkLength * 33 * size := by
  have hcolumns : size / 4 * 4 = size := Nat.div_mul_cancel h
  calc worstLength count size = ceilDiv count chunkLength * 33 * (size / 4 * 4) := by
        rw [worstLength, chunkCount, chunkLength]
        ring
    _ = ceilDiv count chunkLength * 33 * size := by rw [hcolumns]

theorem worstLength_mono_count {fewer : Nat} (size : Nat) (h : fewer ≤ count) :
    worstLength fewer size ≤ worstLength count size :=
  Nat.mul_le_mul_right _ (ceilDiv_mono (by decide) h)

end PlaneStream

/-- Both capacity bounds are exact: no operation leaves the sizes but where the bound does, records
that fill less than half of the addresses have a bound, and fewer records have no larger one. -/
theorem bounds_exact {count size : Nat} (hsize : ValidSize size) (hcount : count < Capacity.limit) :
    (∃ B n, B = Layout.blockLength size ∧
      n = 1 + Layout.tailSize size + ceilDiv count B * size * (ceilDiv (B / 16) 4 + B) ∧
      Layout.bound count size =
        if n < Capacity.limit then .ok n else .error (.boundOverflow count size)) ∧
    (∃ n, n = ceilDiv count 32 * 33 * size ∧ PlaneStream.bound count size =
      if n < Capacity.limit then .ok n else .error (.frame (.boundOverflow count size))) ∧
    (Layout.guardedBound count size = (Layout.bound count size).mapError .error ∧
      PlaneStream.guardedBound count size = (PlaneStream.bound count size).mapError .error) ∧
    (count * size < Capacity.limit / 2 →
      (∃ b, Layout.bound count size = .ok b ∧ count * size ≤ b) ∧
      ∃ b, PlaneStream.bound count size = .ok b ∧ count * size ≤ b) ∧
    ∀ fewer ≤ count,
      (∀ b, Layout.bound count size = .ok b →
        ∃ b' ≤ b, Layout.bound fewer size = .ok b') ∧
      ∀ b, PlaneStream.bound count size = .ok b →
        ∃ b' ≤ b, PlaneStream.bound fewer size = .ok b' := by
  obtain ⟨size, rfl⟩ := hsize.exists_size
  refine ⟨⟨_, _, rfl, Layout.worstLength_eq count size.val, Layout.isBound.eq_ite count size⟩,
    ⟨_, PlaneStream.worstLength_eq count size.four_dvd, PlaneStream.isBound.eq_ite count size⟩,
    ⟨Layout.guardedBound_eq size hcount, PlaneStream.guardedBound_eq size hcount⟩,
    fun hhalf => ⟨?_, ?_⟩, fun fewer hle => ⟨fun b hb => ?_, fun b hb => ?_⟩⟩
  -- A bound adds a part in thirty-two and a few blocks, for which half of the sizes leave room.
  · have hworst := Layout.worstLength_le count size
    refine ⟨_, Layout.isBound.of_lt ?_,
      DeltaStream.mul_le_worstLength (Layout.blockLength_pos size)⟩
    unfold Capacity.limit Layout.blockBudget at *
    omega
  · have hworst := PlaneStream.worstLength_le count size
    refine ⟨_, PlaneStream.isBound.of_lt ?_, PlaneStream.mul_le_worstLength size.four_dvd⟩
    unfold Capacity.limit at *
    omega
  · exact Layout.isBound.exists_le (Layout.worstLength_mono_count size hle) hb
  · exact PlaneStream.isBound.exists_le (PlaneStream.worstLength_mono_count size.val hle) hb

/-- The largest number of records of four bytes that has a bound; with one more there is none. -/
theorem bounds_exact_around_limit :
    ValidSize 4 ∧ 4540737002759273985 < Capacity.limit ∧
      Layout.bound 4540737002759273984 4 = .ok 18446744073709550593 ∧
      Layout.bound 4540737002759273985 4 = .error (.boundOverflow 4540737002759273985 4) := by
  have hsize : ValidSize 4 := by decide
  have hcount : 4540737002759273985 < Capacity.limit := by decide
  obtain ⟨⟨_, _, rfl, rfl, hlast⟩, _⟩ := bounds_exact hsize (Nat.lt_of_succ_lt hcount)
  obtain ⟨⟨_, _, rfl, rfl, hnext⟩, _⟩ := bounds_exact hsize hcount
  exact ⟨hsize, hcount, hlast, hnext⟩

end VertexPack
