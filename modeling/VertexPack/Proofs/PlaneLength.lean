import VertexPack.Proofs.PlaneCanonical
import Mathlib.Algebra.BigOperators.Fin
import Mathlib.Algebra.Order.BigOperators.Group.Finset
import Mathlib.Tactic.Ring

/-! The length of a plane stream as a sum over its source, and the capacity bound. Every chunk takes
its mask and the planes that some folded step of it has a bit in, so records whose words lie half
the range apart leave no plane out. -/
namespace VertexPack
open Plane

def Record.wordAt (size : Nat) (source : List UInt8) (i j : Nat) : UInt32 :=
  Word.ofBytes ((source.drop (i * size + 4 * j)).take 4)

theorem Record.byte_wordAt (size : Nat) (source : List UInt8) (i j : Nat) {b : Nat} (hb : b < 4) :
    Word.byte (wordAt size source i j) b = byteAt size source i (4 * j + b) := by
  rw [wordAt, Word.byte_ofBytes _ hb, byteAt, List.getD_eq_getElem?_getD,
    List.getD_eq_getElem?_getD, List.getElem?_take_of_lt hb, List.getElem?_drop, Nat.add_assoc]

theorem Record.word_split {size count : Nat} {source : List UInt8} {i : Nat}
    (hi : i < (split size count source).length) (j : Fin (size / 4)) :
    (split size count source)[i].word j = wordAt size source i j := by
  apply Word.eq_of_byte
  intro b hb
  rw [byte_word _ _ hb, get_split hi, byte_wordAt _ _ _ _ hb]

theorem Plane.stored_length (planes : Square) :
    (stored planes).length = (Finset.univ.filter fun r : Fin 32 => planes.get r ≠ 0).card := by
  rw [stored, toList_eq_ofFn, List.ofFn_eq_map, List.filter_map, List.length_map,
    ← List.toFinset_card_of_nodup ((List.nodup_finRange 32).filter _)]
  congr 1
  ext r
  simp

namespace PlaneStream

def planeCount (words : Fin 32 → UInt32) : Nat :=
  (Finset.univ.filter fun r : Fin 32 => ∃ c : Fin 32, Word.testBit (words c) r = true).card

theorem Chunk.stored_length (c : Chunk) : (stored c.planes).length = planeCount c.words.get := by
  rw [Plane.stored_length, planeCount]
  congr 1
  ext r
  rw [Finset.mem_filter, Finset.mem_filter, and_congr_right_iff]
  intro _
  constructor
  · intro hplane
    by_contra hbits
    refine hplane (Word.eq_of_testBit fun col hcol => ?_)
    rw [c.testBit_planes r ⟨col, hcol⟩]
    have hbit := not_exists.1 hbits ⟨col, hcol⟩
    simpa [Word.testBit] using hbit
  · intro hbits hplane
    obtain ⟨col, hcol⟩ := hbits
    rw [← c.testBit_planes, hplane] at hcol
    simp [Word.testBit] at hcol

theorem planeCount_le (words : Fin 32 → UInt32) : planeCount words ≤ 32 :=
  (Finset.card_filter_le _ _).trans_eq (Finset.card_fin 32)

theorem planeCount_eq {words : Fin 32 → UInt32} {c : Fin 32} (h : words c = 0xFFFFFFFF) :
    planeCount words = 32 := by
  have hbit (r : Fin 32) : Word.testBit (words c) r = true := by
    rw [h]
    revert r
    decide
  rw [planeCount, Finset.filter_true_of_mem fun r _ => ⟨c, hbit r⟩, Finset.card_fin]

/-- The folded step from the word before that of record `i`, in front of which there is zero; there
is none behind the last record. -/
def stepAt (count size : Nat) (source : List UInt8) (j i : Nat) : UInt32 :=
  if i < count then
    fold (Word.rotateUp (Record.wordAt size source i j))
      (if i = 0 then 0 else Word.rotateUp (Record.wordAt size source (i - 1) j))
  else 0

/-- The length of a stream: for each chunk of each word column a mask, and the planes that are not
zero. -/
def streamLength (count size : Nat) (source : List UInt8) : Nat :=
  ∑ j ∈ Finset.range (size / 4), ∑ i ∈ Finset.range (chunkCount count),
    4 * (1 + planeCount fun c => stepAt count size source j (32 * i + c))

section Source
variable {count size : Nat} {source : List UInt8}

theorem getD_foldedColumn_split (j : Fin (size / 4)) (t : Nat) :
    (foldedColumn j (Record.split size count source)).getD t 0 =
      stepAt count size source j t := by
  have hword (i : Nat) (hi : i < count) : ((Record.wordColumn j
      (Record.split size count source)).map Word.rotateUp).getD i 0 =
        Word.rotateUp (Record.wordAt size source i j) := by
    rw [List.getD_eq_getElem _ _ (by simpa using hi), List.getElem_map]
    simp only [Record.wordColumn, List.getElem_map, Record.word_split]
  rw [stepAt]
  split
  · rename_i ht
    rw [foldedColumn, List.getD_eq_getElem _ _ (by simpa using ht), getElem_foldAll, hword t ht]
    cases t with
    | zero => rw [if_pos rfl, if_pos rfl]
    | succ t => rw [if_neg t.succ_ne_zero, if_neg t.succ_ne_zero, hword _ (by omega)]
  · rename_i ht
    rw [List.getD_eq_default]
    simpa [foldedColumn_length] using ht

theorem chunk_bytes_length (j : Fin (size / 4)) (i : Fin (chunkCount count)) :
    (Cut.ofRecords count (Record.split size count source) j i).bytes.length =
      4 * (1 + planeCount fun c => stepAt count size source j (32 * i + c)) := by
  have htight : (Cut.ofRecords count (Record.split size count source) j i).Tight :=
    Chunk.tight_ofPlanes _
  have hwords : (Cut.ofRecords count (Record.split size count source) j i).words.get =
      fun c : Fin 32 => stepAt count size source j (32 * i + c) := by
    funext c
    rw [Cut.ofRecords, words_cutColumn, getD_foldedColumn_split]
  rw [htight.bytes_length, Chunk.stored_length, hwords]

theorem streamBytes_length (count size : Nat) (source : List UInt8) :
    (streamBytes count size source).length = streamLength count size source := by
  have hflat {m : Nat} (f : Fin m → List UInt8) :
      (List.ofFn f).flatten.length = ∑ i, (f i).length := by
    rw [List.length_flatten, List.map_ofFn, List.sum_ofFn]
    rfl
  rw [streamBytes, Cut.bytes, hflat, streamLength, Finset.sum_range]
  refine Finset.sum_congr rfl fun j _ => ?_
  rw [columnBytes, hflat, Finset.sum_range]
  exact Finset.sum_congr rfl fun i _ => chunk_bytes_length j i

end Source

def worstLength (count size : Nat) : Nat := chunkCount count * (size / 4 * (1 + chunkLength) * 4)

theorem isBound :
    IsBound bound worstLength fun count size => .frame (.boundOverflow count size) where
  eq_ite count size := by
    rw [bound, VertexBuffer.size_val]
    exact Capacity.outcome_checked (worstLength count size.val) _
  of_not_valid count n h := by
    refine ⟨.invalidVertexSize n, ?_⟩
    rw [bound, VertexBuffer.size_of_not_valid h]
    rfl

theorem streamLength_le (count size : Nat) (source : List UInt8) :
    streamLength count size source ≤ worstLength count size := by
  have hcolumn (j : Nat) : ∑ i ∈ Finset.range (chunkCount count),
      4 * (1 + planeCount fun c => stepAt count size source j (32 * i + c)) ≤
        chunkCount count * (4 * 33) := by
    have h := Finset.sum_le_card_nsmul (Finset.range (chunkCount count)) _ (4 * 33) fun i _ =>
      Nat.mul_le_mul_left 4 (Nat.add_le_add_left
        (planeCount_le fun c => stepAt count size source j (32 * i + c)) 1)
    rwa [Finset.card_range, smul_eq_mul] at h
  have h := Finset.sum_le_card_nsmul (Finset.range (size / 4)) _ _ fun j _ => hcolumn j
  rw [Finset.card_range, smul_eq_mul] at h
  rw [streamLength, worstLength, chunkLength]
  refine h.trans_eq ?_
  ring

theorem mul_le_worstLength {count size : Nat} (hdvd : 4 ∣ size) :
    count * size ≤ worstLength count size := by
  obtain ⟨m, rfl⟩ := hdvd
  rw [worstLength, Nat.mul_div_cancel_left m (by decide)]
  calc count * (4 * m) ≤ chunkLength * chunkCount count * (4 * m) :=
        Nat.mul_le_mul_right (4 * m) (le_mul_chunkCount count)
    _ = chunkCount count * (m * chunkLength * 4) := by ring
    _ ≤ chunkCount count * (m * (1 + chunkLength) * 4) :=
        Nat.mul_le_mul_left _ (Nat.mul_le_mul_right 4 (Nat.mul_le_mul_left m (Nat.le_add_left _ 1)))

theorem worstLength_mono (count : Nat) {size size' : Nat} (h : size ≤ size') :
    worstLength count size ≤ worstLength count size' :=
  Nat.mul_le_mul_left _ (Nat.mul_le_mul_right 4 (Nat.mul_le_mul_right _ (Nat.div_le_div_right h)))

/-- A chunk has one mask for its planes, and one chunk at most is not full. -/
theorem worstLength_le (count : Nat) (size : VertexSize) :
    32 * worstLength count size.val ≤ 33 * (count * size.val) + 33 * (31 * 256) := by
  have hchunks : 32 * chunkCount count * 33 ≤ 33 * (count + 31) := by
    simp only [chunkCount, chunkLength, ceilDiv]
    omega
  have hcolumns : size.val / 4 * 4 ≤ size.val := Nat.div_mul_le_self _ _
  have hsize := size.le_max
  calc 32 * worstLength count size.val = 32 * chunkCount count * 33 * (size.val / 4 * 4) := by
        rw [worstLength, chunkLength]
        ring
    _ ≤ 33 * (count + 31) * size.val := Nat.mul_le_mul hchunks hcolumns
    _ ≤ 33 * (count * size.val) + 33 * (31 * 256) := by
        rw [Nat.mul_assoc, Nat.add_mul]
        omega

/-- Records whose rotated words alternate between zero and half the range. -/
def farApart (count size : Nat) : List UInt8 :=
  (List.range (count * size)).map fun t => if t / size % 2 = 0 ∧ t % 4 = 3 then 64 else 0

theorem wordAt_farApart {count size i j : Nat} (hdvd : 4 ∣ size) (hi : i < count)
    (hj : j < size / 4) :
    Record.wordAt size (farApart count size) i j = if i % 2 = 0 then 0x40000000 else 0 := by
  apply Word.eq_of_byte
  intro b hb
  have hk : 4 * j + b < size := by omega
  have hoffset : (i * size + (4 * j + b)) % 4 = b := by
    obtain ⟨m, rfl⟩ := hdvd
    rw [Nat.mul_left_comm, ← Nat.add_assoc, ← Nat.mul_add, Nat.mul_add_mod, Nat.mod_eq_of_lt hb]
  rw [Record.byte_wordAt _ _ _ _ hb, farApart, Record.byteAt_map_range _ hi hk,
    Record.index_div hk, hoffset]
  by_cases heven : i % 2 = 0
  · rw [if_pos heven]
    simp only [heven, true_and]
    interval_cases b <;> rfl
  · rw [if_neg heven, if_neg (fun h => heven h.1)]
    interval_cases b <;> rfl

/-- Half the range is as far either way, and its folded step has every bit. -/
theorem stepAt_farApart {count size i j : Nat} (hdvd : 4 ∣ size) (hi : i < count)
    (hj : j < size / 4) : stepAt count size (farApart count size) j i = 0xFFFFFFFF := by
  rw [stepAt, if_pos hi, wordAt_farApart hdvd hi hj, wordAt_farApart hdvd (by omega) hj]
  by_cases hzero : i = 0
  · subst hzero
    decide
  · rw [if_neg hzero]
    by_cases heven : i % 2 = 0
    · rw [if_pos heven, if_neg (by omega)]
      decide
    · rw [if_neg heven, if_pos (by omega)]
      decide

theorem streamLength_farApart {count size : Nat} (hdvd : 4 ∣ size) :
    streamLength count size (farApart count size) = worstLength count size := by
  have hchunk (j : Nat) (hj : j ∈ Finset.range (size / 4)) (i : Nat)
      (hi : i ∈ Finset.range (chunkCount count)) :
      4 * (1 + planeCount fun c => stepAt count size (farApart count size) j (32 * i + c)) =
        4 * 33 := by
    have hfirst : 32 * i + (0 : Fin 32).val < count :=
      mul_lt_of_lt_chunkCount (Finset.mem_range.1 hi)
    rw [planeCount_eq (stepAt_farApart hdvd hfirst (Finset.mem_range.1 hj))]
  rw [streamLength, Finset.sum_congr rfl fun j hj => Finset.sum_congr rfl (hchunk j hj),
    Finset.sum_const, Finset.sum_const, Finset.card_range, Finset.card_range, smul_eq_mul,
    smul_eq_mul, worstLength, chunkLength]
  ring

/-- A stream has the length that the planes of its source add up to. A destination with less room
is refused, and one with as much takes the stream, which does not depend on it. The bound is never
too small, and for every number of records some source needs all of it. -/
theorem encode_length_and_bound (count size : Nat) :
    (∀ source, Admissible count size source →
      (∃ bytes : List UInt8, bytes.length = streamLength count size source ∧
        ∀ (σ : Type) (observed : σ) (destination : List UInt8),
          (∀ len, (∃ s, encode count size source (.start destination observed) = .ok len s) ↔
            streamLength count size source ≤ destination.length ∧
              len = streamLength count size source) ∧
          (∀ len s, encode count size source (.start destination observed) = .ok len s →
            s.writer.destination = bytes ++ destination.drop len) ∧
          (destination.length < streamLength count size source → ∃ needed available s,
            encode count size source (.start destination observed) =
              .error (.outputTooSmall needed available) s ∧ available < needed)) ∧
      ∀ b, bound count size = .ok b → streamLength count size source ≤ b) ∧
    ∀ b, bound count size = .ok b → ∃ source, source.length = count * size ∧
      Admissible count size source ∧ streamLength count size source = b := by
  constructor
  · intro source h
    refine ⟨⟨streamBytes count size source, streamBytes_length _ _ _, ?_⟩, ?_⟩
    · intro σ observed destination
      rw [← streamBytes_length]
      refine ⟨fun len => ?_, fun len s hs => (of_encode_eq_ok hs).2.2.2,
        fun hlt => (encode_emits h).start_of_lt observed hlt⟩
      constructor
      · rintro ⟨s, hs⟩
        obtain ⟨_, hlen, hroom, _⟩ := of_encode_eq_ok hs
        exact ⟨hlen ▸ hroom, hlen⟩
      · rintro ⟨hroom, rfl⟩
        obtain ⟨s, hs, _⟩ := (encode_emits h).start_of_le observed hroom
        exact ⟨s, hs⟩
    · intro b hb
      rw [(isBound.of_eq_ok hb).2.2]
      exact streamLength_le count size source
  · intro b hb
    obtain ⟨hvalid, hlimit, rfl⟩ := isBound.of_eq_ok hb
    have hdvd : 4 ∣ size := hvalid.2.2
    have hlength : (farApart count size).length = count * size := by
      rw [farApart, List.length_map, List.length_range]
    have hsize : count * size < Capacity.limit :=
      Nat.lt_of_le_of_lt (mul_le_worstLength hdvd) hlimit
    exact ⟨farApart count size, hlength, ⟨hvalid, hsize, Nat.le_of_eq hlength.symm⟩,
      streamLength_farApart hdvd⟩

theorem encode_length_and_bound_short_chunk :
    bound 33 4 = .ok 264 ∧ ∃ source : List UInt8, source.length = 132 ∧
      ∃ s, encode 33 4 source (.start (List.replicate 264 0) ()) = .ok 264 s := by
  have hbound : bound 33 4 = .ok 264 := rfl
  obtain ⟨hencode, hattained⟩ := encode_length_and_bound 33 4
  obtain ⟨source, hlength, hadmissible, hstream⟩ := hattained 264 hbound
  obtain ⟨⟨bytes, _, hruns⟩, _⟩ := hencode source hadmissible
  obtain ⟨hok, _⟩ := hruns Unit () (List.replicate 264 0)
  exact ⟨hbound, source, hlength,
    (hok 264).2 ⟨by rw [hstream, List.length_replicate], hstream.symm⟩⟩

end PlaneStream
end VertexPack
