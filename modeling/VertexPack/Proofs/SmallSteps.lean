import VertexPack.Proofs.PlaneLength

/-! Small steps take few planes. A folded step has its sign in the top bit and below it the bits of
a number that is small where the step is small in either direction, so the planes in between are
zero, those of the padding too. -/
namespace VertexPack

namespace Plane
open Word (testBit)
variable {b r : Nat}

def signed (d : UInt32) : Int := d.toInt32.toInt

/-- A step between the powers of two on either side. -/
def Within (b : Nat) (d : UInt32) : Prop := -2 ^ b ≤ signed d ∧ signed d < 2 ^ b

instance (b : Nat) (d : UInt32) : Decidable (Within b d) := inferInstanceAs (Decidable (_ ∧ _))

theorem testBit_zero (r : Nat) : testBit 0 r = false := BitVec.getLsbD_zero

theorem testBit_eq (d : UInt32) (r : Nat) : testBit d r = d.toNat.testBit r := rfl

theorem signed_eq (d : UInt32) :
    signed d = if 2 * d.toNat < 2 ^ 32 then (d.toNat : Int) else d.toNat - 2 ^ 32 :=
  BitVec.toInt_eq_toNat_cond d.toBitVec

theorem testBit_top (d : UInt32) : testBit d 31 = decide (signed d < 0) := by
  have hd := d.toNat_lt
  have htop : testBit d 31 = decide (2 ^ 31 ≤ d.toNat) := by
    rw [testBit_eq, Nat.testBit_eq_decide_div_mod_eq, decide_eq_decide]
    omega
  rw [htop, decide_eq_decide, signed_eq]
  split <;> omega

theorem shiftRight_eq_zero_iff (d : UInt32) : d >>> 31 = 0 ↔ testBit d 31 = false := by
  have hd := d.toNat_lt
  rw [← UInt32.toNat_inj, UInt32.toNat_shiftRight, testBit_top, decide_eq_false_iff_not,
    signed_eq, Nat.shiftRight_eq_div_pow]
  change d.toNat / 2 ^ 31 = 0 ↔ _
  split <;> omega

theorem testBit_flip (d : UInt32) (hr : r < 31) :
    testBit (flip d) r = (testBit d r ^^ testBit d 31) := by
  have hmask : testBit foldMask r = true := by
    revert r
    decide
  unfold flip
  by_cases h : d >>> 31 = 0
  · rw [if_neg (not_not.2 h), (shiftRight_eq_zero_iff d).1 h, Bool.xor_false]
  · have htop : testBit d 31 = true := by
      rwa [shiftRight_eq_zero_iff, Bool.not_eq_false] at h
    rw [if_pos h, htop, ← hmask]
    exact BitVec.getLsbD_xor

theorem testBit_flip_top (d : UInt32) : testBit (flip d) 31 = testBit d 31 := by
  have h := flip_shiftRight d
  have hiff := (shiftRight_eq_zero_iff (flip d)).symm.trans
    ((Eq.congr_left h).trans (shiftRight_eq_zero_iff d))
  rwa [← Bool.not_eq_true, ← Bool.not_eq_true, not_iff_not, ← Bool.eq_iff_iff] at hiff

/-- A small step has no bit between the small ones and the sign. -/
theorem testBit_flip_of_within {d : UInt32} (h : Within b d) (hb : b ≤ r) (hr : r < 31) :
    testBit (flip d) r = false := by
  obtain ⟨hlow, hhigh⟩ := h
  have hpow : 2 ^ b ≤ 2 ^ r := Nat.pow_le_pow_right (by decide) hb
  have hcast : ((2 ^ b : Nat) : Int) = 2 ^ b := by push_cast; rfl
  have hd := d.toNat_lt
  rw [testBit_flip d hr, testBit_top]
  by_cases hneg : signed d < 0
  · -- The bits of a negative step are those of its complement, turned over.
    have hsmall : 2 ^ 32 - (d.toNat + 1) < 2 ^ r := by
      rw [signed_eq] at hlow hneg
      split at hneg <;> omega
    have hcomplement := Nat.testBit_two_pow_sub_succ (x := d.toNat) (n := 32) hd r
    rw [Nat.testBit_lt_two_pow hsmall, decide_eq_true (by omega : r < 32), Bool.true_and]
      at hcomplement
    rw [testBit_eq, decide_eq_true hneg, Bool.xor_true, ← hcomplement]
  · have hsmall : d.toNat < 2 ^ r := by
      rw [signed_eq] at hhigh hneg
      split at hneg <;> omega
    rw [testBit_eq, Nat.testBit_lt_two_pow hsmall, decide_eq_false hneg, Bool.xor_false]

def steps (last : UInt32) (words : List UInt32) : List UInt32 :=
  stepsFrom (fun last v => v - last) last words

theorem foldAll_eq_map (last : UInt32) (words : List UInt32) :
    foldAll last words = (steps last words).map flip := by
  induction words generalizing last with
  | nil => rfl
  | cons v vs ih => rw [foldAll, ih, steps, steps, stepsFrom, List.map_cons, fold]

def planes (last : UInt32) (words : List UInt32) : Square := transpose (ofList (foldAll last words))

theorem exists_testBit_of_planes_ne_zero {last : UInt32} {words : List UInt32} {r : Fin 32}
    (h : (planes last words).get r ≠ 0) :
    ∃ d ∈ steps last words, testBit (flip d) r = true := by
  by_contra hnone
  refine h (Word.eq_of_testBit fun c hc => ?_)
  rw [planes, testBit_transpose _ r ⟨c, hc⟩, ofList, get_ofFn,
    foldAll_eq_map]
  by_cases hlen : c < ((steps last words).map flip).length
  · rw [List.getD_eq_getElem _ _ hlen, List.getElem_map, testBit_zero, Bool.eq_false_iff]
    exact fun hbit => hnone ⟨_, List.getElem_mem _, hbit⟩
  · rw [List.getD_eq_default _ _ (Nat.le_of_not_lt hlen), testBit_zero, testBit_zero]

theorem lt_or_eq_of_planes_ne_zero {last : UInt32} {words : List UInt32} {r : Fin 32}
    (hsmall : ∀ d ∈ steps last words, Within b d) (h : (planes last words).get r ≠ 0) :
    r.val < b ∨ r.val = 31 := by
  obtain ⟨d, hd, hbit⟩ := exists_testBit_of_planes_ne_zero h
  by_contra hout
  rw [testBit_flip_of_within (hsmall d hd) (by omega) (by omega)] at hbit
  cases hbit

theorem lt_of_planes_ne_zero {last : UInt32} {words : List UInt32} {r : Fin 32}
    (hsmall : ∀ d ∈ steps last words, Within b d)
    (hpos : ∀ d ∈ steps last words, 0 ≤ signed d)
    (h : (planes last words).get r ≠ 0) : r.val < b := by
  refine (lt_or_eq_of_planes_ne_zero hsmall h).resolve_right fun htop => ?_
  obtain ⟨d, hd, hbit⟩ := exists_testBit_of_planes_ne_zero h
  rw [htop, testBit_flip_top, testBit_top, decide_eq_true_iff] at hbit
  exact Int.not_lt.2 (hpos d hd) hbit

theorem stored_length_le {square : Square} (places : Finset Nat)
    (h : ∀ r : Fin 32, square.get r ≠ 0 → r.val ∈ places) :
    (stored square).length ≤ places.card := by
  rw [stored_length]
  refine Finset.card_le_card_of_injOn Fin.val (fun r hr => ?_) Fin.val_injective.injOn
  exact h r (Finset.mem_filter.1 hr).2

end Plane

theorem forM_split {m : Type → Type} [Monad m] [LawfulMonad m] {ι : Type} {f : ι → m Unit}
    {l : List ι} {i : Nat} (hi : i < l.length) :
    l.forM f = (l.take i).forM f >>= fun _ => f l[i] >>= fun _ => (l.drop (i + 1)).forM f := by
  have h : forM (l.take i ++ l.drop i) f = forM (l.take i) f >>= fun _ => forM (l.drop i) f :=
    List.forM_append
  rwa [List.take_append_drop, List.drop_eq_getElem_cons hi, List.forM_cons] at h

namespace Encoding
variable {σ α β : Type}

theorem write_bind (step : Writing CursorError α) (next : α → Writing CursorError β) :
    (write (step >>= next) : Encoding σ β) = write step >>= fun a => write (next a) := by
  funext s
  change writing .ofCursor (step >>= next) s =
    (writing .ofCursor step >>= fun a => writing .ofCursor (next a)) s
  cases h : step s.writer with
  | ok a w =>
    rw [bind_of_ok (writing_of_ok .ofCursor h), writing, bind_of_ok h]
    rfl
  | error e w => rw [bind_of_error (writing_of_error .ofCursor h), writing, bind_of_error h]

end Encoding

namespace PlaneStream
open Plane

theorem Chunk.ofWords_bytes_length (words : List UInt32) : (Chunk.ofWords words).bytes.length =
    4 * (1 + (stored (transpose (Plane.ofList words))).length) :=
  (Chunk.tight_ofPlanes _).bytes_length

theorem encodeChunk_eq (words : List UInt32) (w : Writer) : encodeChunk words w =
    if (Chunk.ofWords words).bytes.length ≤ w.remaining then
      .ok () (w.push (Chunk.ofWords words).bytes)
    else .error (.overflow (Chunk.ofWords words).bytes.length w.remaining) w := by
  split
  · exact (encodeChunk_writes words).fits w ‹_›
  · rename_i h
    rw [Chunk.ofWords_bytes_length] at h ⊢
    rw [encodeChunk, countOnes_mask]
    exact bind_of_error (Writer.ensure_of_lt (Nat.lt_of_not_le h))

namespace Job
variable {σ : Type}

def rotatedColumn (job : Job) (j : Fin (job.size.val / 4)) : List UInt32 :=
  (job.records.map (·.word j)).map Word.rotateUp

def chunkWords (job : Job) (j : Fin (job.size.val / 4)) (i : Nat) : List UInt32 :=
  ((job.rotatedColumn j).drop (chunkLength * i)).take chunkLength

def carried (job : Job) (j : Fin (job.size.val / 4)) (i : Nat) : UInt32 :=
  ((job.rotatedColumn j).take (chunkLength * i)).getLastD 0

def stepsAt (job : Job) (j : Fin (job.size.val / 4)) (i : Nat) : List UInt32 :=
  steps (job.carried j i) (job.chunkWords j i)

def writeChunk (job : Job) (j : Fin (job.size.val / 4)) (i : Nat) : Writing CursorError Unit :=
  encodeChunk (foldAll (job.carried j i) (job.chunkWords j i))

def writeBefore (job : Job) (j : Fin (job.size.val / 4)) (i : Nat) : Writing CursorError Unit := do
  ((List.finRange (job.size.val / 4)).take j).forM fun k =>
    encodeColumn (job.records.map (·.word k))
  ((chunks chunkLength (foldAll 0 (job.rotatedColumn j))).take i).forM encodeChunk

def writeBehind (job : Job) (j : Fin (job.size.val / 4)) (i : Nat) : Writing CursorError Unit := do
  ((chunks chunkLength (foldAll 0 (job.rotatedColumn j))).drop (i + 1)).forM encodeChunk
  ((List.finRange (job.size.val / 4)).drop (j + 1)).forM fun k =>
    encodeColumn (job.records.map (·.word k))

def encodeBehind (job : Job) (j : Fin (job.size.val / 4)) (i : Nat) : Encoding σ Nat := do
  Encoding.write (job.writeBehind j i)
  let total ← Encoding.position
  Encoding.note (.planesEncoded job.records.length job.size.val total)
  pure total

theorem getElem_chunks_foldAll {job : Job} {j : Fin (job.size.val / 4)} {i : Nat}
    (hi : i < (chunks chunkLength (foldAll 0 (job.rotatedColumn j))).length) :
    (chunks chunkLength (foldAll 0 (job.rotatedColumn j)))[i] =
      foldAll (job.carried j i) (job.chunkWords j i) := by
  rw [getElem_chunks, foldAll_eq_stepsFrom, foldAll_eq_stepsFrom, chunkWords, carried,
    stepsFrom_take, stepsFrom_drop]

/-- The encoder comes to every chunk. -/
theorem encode_eq (job : Job) (j : Fin (job.size.val / 4)) {i : Nat}
    (hi : i < chunkCount job.records.length) : (job.encode : Encoding σ Nat) = (do
      Encoding.write (job.writeBefore j i)
      Encoding.write (job.writeChunk j i)
      job.encodeBehind j i) := by
  have hchunk : i < (chunks chunkLength (foldAll 0 (job.rotatedColumn j))).length := by
    simpa [rotatedColumn, chunkCount] using hi
  have hplace : j.val < (List.finRange (job.size.val / 4)).length := by simp
  -- The columns are split at offset `j`, and the chunks of that column at chunk `i`.
  have hcolumn : encodeColumn (job.records.map (·.word j)) = _ :=
    forM_split (f := encodeChunk) hchunk
  have hcolumns := forM_split (f := fun k : Fin (job.size.val / 4) =>
    encodeColumn (job.records.map (·.word k))) hplace
  rw [getElem_chunks_foldAll] at hcolumn
  rw [List.getElem_finRange, Fin.cast_mk] at hcolumns
  rw [encode, hcolumns, hcolumn]
  simp only [writeBefore, writeChunk, encodeBehind, writeBehind, Encoding.write_bind, bind_assoc]

end Job

/-- A chunk of steps that lie within `b` bits takes its mask, `b` planes and one for the signs, and
not even that one where no step is negative. -/
theorem chunk_of_small_steps (job : Job) (j : Fin (job.size.val / 4)) {i b : Nat}
    (hi : i < chunkCount job.records.length) (hsmall : ∀ d ∈ job.stepsAt j i, Within b d) :
    (∀ {σ : Type}, (job.encode : Encoding σ Nat) = (do
      Encoding.write (job.writeBefore j i)
      Encoding.write (job.writeChunk j i)
      job.encodeBehind j i)) ∧
    (∀ r : Fin 32, (planes (job.carried j i) (job.chunkWords j i)).get r ≠ 0 →
      r.val < b ∨ r.val = 31) ∧
    ∃ bytes : List UInt8, bytes.length ≤ 4 * (2 + b) ∧
      ((∀ d ∈ job.stepsAt j i, 0 ≤ signed d) → bytes.length ≤ 4 * (1 + b)) ∧
      ∀ w : Writer, job.writeChunk j i w =
        if bytes.length ≤ w.remaining then .ok () (w.push bytes)
        else .error (.overflow bytes.length w.remaining) w := by
  have hplanes (r : Fin 32) (hr : (planes (job.carried j i) (job.chunkWords j i)).get r ≠ 0) :
      r.val < b ∨ r.val = 31 := lt_or_eq_of_planes_ne_zero hsmall hr
  refine ⟨job.encode_eq j hi, hplanes, _, ?_, fun hpos => ?_, encodeChunk_eq _⟩
  -- Besides the planes of the small bits only the plane of the signs can be stored.
  · have hcount := stored_length_le (insert 31 (Finset.range b)) fun r hr => by
      simpa [or_comm] using hplanes r hr
    have hcard := Finset.card_insert_le 31 (Finset.range b)
    rw [Finset.card_range] at hcard
    rw [Chunk.ofWords_bytes_length]
    exact Nat.mul_le_mul_left 4 (by unfold planes at hcount; omega)
  · have hcount := stored_length_le (Finset.range b) fun r hr =>
      Finset.mem_range.2 (lt_of_planes_ne_zero hsmall hpos hr)
    rw [Finset.card_range] at hcount
    rw [Chunk.ofWords_bytes_length]
    exact Nat.mul_le_mul_left 4 (Nat.add_le_add_left hcount 1)

theorem chunk_of_small_steps_up_and_down :
    let job : Job :=
      ⟨⟨4, by decide, by decide, by decide⟩, [#v[1, 0, 0, 128], #v[0, 0, 0, 128]]⟩
    let j : Fin (job.size.val / 4) := ⟨0, by decide⟩
    job.stepsAt j 0 = [3, -2] ∧ (∀ d ∈ job.stepsAt j 0, Within 2 d) ∧
      ∃ bytes : List UInt8, bytes.length ≤ 16 ∧
        ∀ w : Writer, bytes.length ≤ w.remaining →
          job.writeChunk j 0 w = .ok () (w.push bytes) := by
  intro job j
  have hsteps : job.stepsAt j 0 = [3, -2] := by decide +kernel
  have hsmall : ∀ d ∈ job.stepsAt j 0, Within 2 d := by
    rw [hsteps]
    exact List.forall_mem_cons.2 ⟨by decide, List.forall_mem_singleton.2 (by decide)⟩
  obtain ⟨_, _, bytes, hlen, _, hrun⟩ := chunk_of_small_steps job j (by decide) hsmall
  exact ⟨hsteps, hsmall, bytes, hlen, fun w hw => (hrun w).trans (if_pos hw)⟩

end PlaneStream
end VertexPack
