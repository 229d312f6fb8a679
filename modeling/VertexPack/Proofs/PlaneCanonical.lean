import VertexPack.Proofs.PlaneRoundTrip

/-! Which of the streams that decode to the same records an encoder writes: the one that stores
no plane of zeros and has nothing behind the end of a column. No other one is shorter. -/
namespace VertexPack.PlaneStream
open Plane Word

namespace Chunk
variable {c d : Chunk} {n : Nat}

theorem testBit_planes (c : Chunk) (r col : Fin 32) :
    testBit (c.planes.get r) col = testBit (c.words.get col) r := by
  rw [← testBit_transpose]
  rfl

theorem Tight.eq_of_planes (hc : c.Tight) (hd : d.Tight) (h : c.planes = d.planes) : c = d := by
  refine ext_of_eq (Word.eq_of_testBit fun j hj => ?_) h
  have hmask : bit c.mask j = 0 ↔ bit d.mask j = 0 := by
    rw [hc.bit_mask ⟨j, hj⟩, hd.bit_mask ⟨j, hj⟩, h]
  rwa [bit_eq_zero_iff _ hj, bit_eq_zero_iff _ hj, Bool.eq_false_iff, Bool.eq_false_iff,
    not_iff_not, ← Bool.eq_iff_iff] at hmask

/-- `d` is `c` without its words from the `n`-th on and without its stored zeros. -/
structure Trims (n : Nat) (c d : Chunk) : Prop where
  tight : d.Tight
  bits : ∀ r col : Fin 32,
    testBit (d.planes.get r) col = (decide (col.val < n) && testBit (c.planes.get r) col)

theorem Trims.planeBytes_length_le (h : Trims n c d) (r : Fin 32) :
    (d.planeBytes r).length ≤ (c.planeBytes r).length := by
  by_cases hc : bit c.mask r = 0
  · have hplane : d.planes.get r = 0 := by
      apply Word.eq_of_testBit
      intro j hj
      have hbit := h.bits r ⟨j, hj⟩
      rw [c.absent r hc] at hbit
      simpa [testBit] using hbit
    rw [planeBytes, if_pos ((h.tight.bit_mask r).2 hplane)]
    exact Nat.zero_le _
  · rw [planeBytes, planeBytes, if_neg hc, toBytes_length]
    split
    · exact Nat.zero_le _
    · rw [toBytes_length]

theorem Trims.eq_iff (h : Trims n c d) :
    c = d ↔ c.Tight ∧ ∀ r col : Fin 32, n ≤ col → bit (c.planes.get r) col = 0 := by
  constructor
  · intro heq
    refine ⟨heq ▸ h.tight, fun r col hcol => ?_⟩
    have hbit := h.bits r col
    rw [decide_eq_false (Nat.not_lt.2 hcol), Bool.false_and] at hbit
    rw [heq, bit_eq_zero_iff _ col.isLt, hbit]
  · intro hform
    obtain ⟨htight, hpadding⟩ := hform
    refine htight.eq_of_planes h.tight (Plane.eq_of_testBit fun r col => ?_)
    rw [h.bits r col]
    by_cases hcol : col.val < n
    · rw [decide_eq_true hcol, Bool.true_and]
    · rw [decide_eq_false hcol, Bool.false_and, ← bit_eq_zero_iff _ col.isLt]
      exact hpadding r col (Nat.le_of_not_lt hcol)

end Chunk

theorem length_flatten_ofFn_le {m : Nat} {f g : Fin m → List UInt8}
    (h : ∀ i, (f i).length ≤ (g i).length) :
    (List.ofFn f).flatten.length ≤ (List.ofFn g).flatten.length := by
  induction m with
  | zero => simp
  | succ m ih =>
    have hzero := h 0
    have hrest := ih fun i => h i.succ
    simp only [List.ofFn_succ, List.flatten_cons, List.length_append]
    omega

namespace Cut
variable {size count : Nat} {cut : Cut size count} {records : List (Record size)}

/-- No plane of zeros is stored, and there is no bit behind the end of a column whose last
chunk is not full. -/
structure Canonical (cut : Cut size count) : Prop where
  tight : ∀ j i, ∀ r : Fin 32, bit (cut j i).mask r ≠ 0 → (cut j i).planes.get r ≠ 0
  padding : count % 32 ≠ 0 → ∀ j i, i.val + 1 = chunkCount count → ∀ r col : Fin 32,
    count % 32 ≤ col → bit ((cut j i).planes.get r) col = 0

theorem bytes_inj {cut' : Cut size count} : cut.bytes = cut'.bytes ↔ cut = cut' := by
  constructor
  · intro heq
    exact (bytes_append_inj (u := []) (v := []) (by rw [heq])).1
  · intro heq
    rw [heq]

theorem trims_ofRecords (h : cut.Stores records) (j : Fin (size / 4))
    (i : Fin (chunkCount count)) :
    (cut j i).Trims (count - 32 * i) (ofRecords count records j i) where
  tight := Chunk.tight_ofPlanes _
  bits r col := by
    have hword : (foldedWords (cut j)).getD (32 * i + col) 0 = (cut j i).words.get col := by
      rw [foldedWords, getD_flatMap_toList (by simp) col, List.getElem_ofFn]
    rw [Chunk.testBit_planes, Chunk.testBit_planes, ofRecords, words_cutColumn, h.2 j, ← hword,
      List.getD_eq_getElem?_getD, List.getD_eq_getElem?_getD, List.getElem?_take]
    by_cases hlt : 32 * i.val + col < count
    · rw [if_pos hlt, decide_eq_true (by omega), Bool.true_and]
    · rw [if_neg hlt, decide_eq_false (by omega), Bool.false_and]
      simp [testBit]

theorem bytes_length_le (h : cut.Stores records) :
    (ofRecords count records).bytes.length ≤ cut.bytes.length := by
  refine length_flatten_ofFn_le fun j => length_flatten_ofFn_le fun i => ?_
  have hplanes := length_flatten_ofFn_le (trims_ofRecords h j i).planeBytes_length_le
  simp only [Chunk.bytes, List.length_append, toBytes_length]
  omega

theorem eq_ofRecords_iff (h : cut.Stores records) :
    cut = ofRecords count records ↔ cut.Canonical := by
  have hchunk (j : Fin (size / 4)) (i : Fin (chunkCount count)) := (trims_ofRecords h j i).eq_iff
  have hcount (i : Fin (chunkCount count)) : 32 * i.val < count := mul_lt_of_lt_chunkCount i.isLt
  constructor
  · intro heq
    refine ⟨fun j i => ((hchunk j i).1 (by rw [← heq])).1, fun hmod j i hlast r col hcol => ?_⟩
    refine ((hchunk j i).1 (by rw [← heq])).2 r col ?_
    simp only [chunkCount, ceilDiv, chunkLength] at hlast
    omega
  · intro hform
    funext j i
    refine (hchunk j i).2 ⟨hform.tight j i, fun r col hcol => ?_⟩
    have hlt := hcount i
    refine hform.padding (by omega) j i ?_ r col (by omega)
    simp only [chunkCount, ceilDiv, chunkLength]
    omega

end Cut

variable {σ : Type} {count size : Nat} {out stream bytes : List UInt8}

/-- Encoding what a stream was decoded to takes no more bytes than the stream has, and gives the
stream itself if and only if it is in canonical form. -/
theorem encode_decoded_canonical (h : decodeInto out count size stream = .ok bytes)
    (observed : σ) :
    ∃ cut : Cut size count, (∀ cut' : Cut size count, cut'.bytes = stream ↔ cut' = cut) ∧
      ∀ destination : List UInt8,
        (stream.length ≤ destination.length → ∃ len s,
          encode count size (bytes.take (count * size)) (.start destination observed) =
            .ok len s) ∧
        ∀ len s, encode count size (bytes.take (count * size)) (.start destination observed) =
            .ok len s →
          len ≤ stream.length ∧ (s.writer.destination.take len = stream ↔ cut.Canonical) := by
  obtain ⟨size, rfl, hlim, _, cut, records, hstores, rfl, rfl⟩ := of_decodeInto_eq_ok h
  have hflatten : (Record.flatten records).length = count * size.val := by
    rw [Record.flatten_length, hstores.1]
  rw [List.take_left' hflatten]
  have hadmissible : Admissible count size.val (Record.flatten records) :=
    ⟨size.valid, hlim, Nat.le_of_eq hflatten.symm⟩
  have hbytes : streamBytes count size.val (Record.flatten records) =
      (Cut.ofRecords count records).bytes := by
    rw [streamBytes, Record.split_flatten hstores.1]
  have hle := Cut.bytes_length_le hstores
  refine ⟨cut, fun cut' => Cut.bytes_inj, fun destination => ⟨fun hroom => ?_, fun len s hs => ?_⟩⟩
  · rw [← hbytes] at hle
    obtain ⟨s, hs, _⟩ := (encode_emits hadmissible).start_of_le observed
      (Nat.le_trans hle hroom)
    exact ⟨_, s, hs⟩
  · obtain ⟨_, hlen, _⟩ := of_encode_eq_ok hs
    rw [hbytes] at hlen
    rw [take_of_encode_eq_ok hs, hbytes, hlen, Cut.bytes_inj, eq_comm,
      Cut.eq_ofRecords_iff hstores]
    exact ⟨hle, Iff.rfl⟩

def Chunk.redundant : Chunk where
  mask := 3
  planes := Vector.ofFn fun r => if r = 0 then 3 else 0
  absent := by decide

theorem encode_decoded_canonical_redundant :
    ∃ len s, encode 1 4 [0, 0, 0, 128] (.start (List.replicate 12 0) ()) = .ok len s ∧
      len ≤ 12 ∧ s.writer.destination.take len ≠ [3, 0, 0, 0, 3, 0, 0, 0, 0, 0, 0, 0] := by
  have hdecode : decodeInto (List.replicate 5 9) 1 4 [3, 0, 0, 0, 3, 0, 0, 0, 0, 0, 0, 0] =
      .ok [0, 0, 0, 128, 9] := by with_unfolding_all rfl
  obtain ⟨cut, hcut, hencode⟩ := encode_decoded_canonical hdecode ()
  obtain ⟨hroom, hlen⟩ := hencode (List.replicate 12 0)
  obtain ⟨len, s, hs⟩ := hroom (by decide)
  obtain ⟨hle, hcanonical⟩ := hlen len s hs
  have hcut : (fun _ _ => Chunk.redundant) = cut := (hcut _).1 (by decide)
  refine ⟨len, s, hs, hle, fun heq => ?_⟩
  have hform := hcanonical.1 heq
  rw [← hcut] at hform
  exact hform.tight 0 ⟨0, by decide⟩ 1 (by decide) (by decide)

end VertexPack.PlaneStream
