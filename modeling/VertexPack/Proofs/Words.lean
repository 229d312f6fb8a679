import VertexPack.Bytes
import VertexPack.Proofs.Chunks
import VertexPack.Proofs.Reading
import Mathlib.Data.List.GetD
import Mathlib.Tactic.IntervalCases

/-! Words through their bits: a word and its four bytes determine each other, so do a word and
its rotation, and so do records and their word columns. -/
namespace VertexPack

namespace Word
variable {w v : UInt32} {i j : Nat}

def testBit (w : UInt32) (j : Nat) : Bool := w.toBitVec.getLsbD j

theorem eq_of_testBit (h : ∀ j < 32, testBit w j = testBit v j) : w = v :=
  UInt32.toBitVec_inj.1 (BitVec.eq_of_getLsbD_eq h)

theorem testBit_of_le (h : 32 ≤ j) : testBit w j = false := BitVec.getLsbD_of_ge _ _ h

theorem byte_eq_of_getLsbD {a b : UInt8}
    (h : ∀ j < 8, a.toBitVec.getLsbD j = b.toBitVec.getLsbD j) : a = b :=
  UInt8.toBitVec_inj.1 (BitVec.eq_of_getLsbD_eq h)

theorem getLsbD_byte (w : UInt32) (hi : i < 4) (hj : j < 8) :
    (byte w i).toBitVec.getLsbD j = testBit w (8 * i + j) := by
  have hshift : 8 * i % 32 = 8 * i := Nat.mod_eq_of_lt (by omega)
  simp [byte, testBit, hj, hshift]

theorem testBit_ofBytes (bs : List UInt8) (hj : j < 32) :
    testBit (ofBytes bs) j = (bs.getD (j / 8) 0).toBitVec.getLsbD (j % 8) := by
  induction bs generalizing j with
  | nil => simp [testBit, ofBytes]
  | cons b bs ih =>
    rw [ofBytes, List.foldr_cons, ← ofBytes]
    by_cases h : j < 8
    · simp [testBit, h, hj, Nat.div_eq_of_lt, Nat.mod_eq_of_lt]
    · have hb : b.toBitVec.getLsbD j = false := BitVec.getLsbD_of_ge _ _ (by omega)
      have hnext := ih (j := j - 8) (by omega)
      rw [show j / 8 = (j - 8) / 8 + 1 by omega, List.getD_cons_succ,
        show j % 8 = (j - 8) % 8 by omega, ← hnext]
      simp [testBit, h, hj, hb, BitVec.getLsbD_eq_getElem (show j - 8 < 32 by omega)]

theorem getD_toBytes (w : UInt32) (hi : i < 4) : (toBytes w).getD i 0 = byte w i := by
  interval_cases i <;> rfl

theorem byte_ofBytes (bs : List UInt8) (hi : i < 4) : byte (ofBytes bs) i = bs.getD i 0 := by
  apply byte_eq_of_getLsbD
  intro j hj
  rw [getLsbD_byte _ hi hj, testBit_ofBytes _ (by omega), show (8 * i + j) / 8 = i by omega,
    show (8 * i + j) % 8 = j by omega]

theorem ofBytes_toBytes (w : UInt32) : ofBytes (toBytes w) = w := by
  apply eq_of_testBit
  intro j hj
  rw [testBit_ofBytes _ hj, getD_toBytes w (by omega), getLsbD_byte w (by omega) (by omega),
    Nat.div_add_mod]

theorem toBytes_ofBytes {bs : List UInt8} (h : bs.length = 4) : toBytes (ofBytes bs) = bs := by
  apply List.ext_getElem
  · rw [h, toBytes_length]
  · intro i hi hi'
    rw [toBytes_length] at hi
    rw [← List.getD_eq_getElem _ 0, getD_toBytes _ hi, byte_ofBytes _ hi, List.getD_eq_getElem]

theorem eq_of_byte (h : ∀ i < 4, byte w i = byte v i) : w = v := by
  rw [← ofBytes_toBytes w, ← ofBytes_toBytes v, toBytes, toBytes, h 0 (by decide), h 1 (by decide),
    h 2 (by decide), h 3 (by decide)]

theorem testBit_rotateUp (w : UInt32) (hj : j < 32) :
    testBit (rotateUp w) j = testBit w ((j + 31) % 32) := by
  by_cases h : j = 0
  · subst h
    simp [testBit, rotateUp]
  · have hbefore : (j + 31) % 32 = j - 1 := by omega
    have hhigh : w.toBitVec.getLsbD (31 + j) = false := testBit_of_le (by omega)
    rw [hbefore]
    simp [testBit, rotateUp, hj, h, hhigh, BitVec.getLsbD_eq_getElem (show j - 1 < 32 by omega)]

theorem testBit_rotateDown (w : UInt32) (hj : j < 32) :
    testBit (rotateDown w) j = testBit w ((j + 1) % 32) := by
  by_cases h : j = 31
  · subst h
    simp [testBit, rotateDown]
  · have hnext : (j + 1) % 32 = 1 + j := by omega
    have hlow : ¬ 31 ≤ j := by omega
    rw [hnext]
    simp [testBit, rotateDown, hj, hlow]

theorem rotateDown_rotateUp (w : UInt32) : rotateDown (rotateUp w) = w := by
  apply eq_of_testBit
  intro j hj
  rw [testBit_rotateDown _ hj, testBit_rotateUp _ (by omega),
    show ((j + 1) % 32 + 31) % 32 = j by omega]

theorem rotateUp_rotateDown (w : UInt32) : rotateUp (rotateDown w) = w := by
  apply eq_of_testBit
  intro j hj
  rw [testBit_rotateUp _ hj, testBit_rotateDown _ (by omega),
    show ((j + 31) % 32 + 1) % 32 = j by omega]

end Word

theorem Reads.word {h : Nat} : Reads h Reader.word fun w bs => bs = Word.toBytes w := by
  refine ((take 4).map (f := fun a => Word.ofBytes a.1)).congr fun w bs => ?_
  constructor
  · intro hw
    obtain ⟨⟨bs, hbs⟩, rfl, rfl⟩ := hw
    exact (Word.toBytes_ofBytes hbs).symm
  · intro hw
    subst hw
    exact ⟨⟨Word.toBytes w, rfl⟩, rfl, (Word.ofBytes_toBytes w).symm⟩

namespace Record
variable {size : Nat}

def wordColumn (j : Fin (size / 4)) (records : List (Record size)) : List UInt32 :=
  records.map (·.word j)

@[simp] theorem wordColumn_length (j : Fin (size / 4)) (records : List (Record size)) :
    (wordColumn j records).length = records.length := List.length_map _

theorem byte_word (r : Record size) (j : Fin (size / 4)) {i : Nat} (hi : i < 4) :
    Word.byte (r.word j) i = r.get ⟨4 * j + i, by omega⟩ := by
  rw [word, Word.byte_ofBytes _ hi]
  interval_cases i <;> rfl

theorem eq_of_word (h : 4 ∣ size) {r r' : Record size} (hw : ∀ j, r.word j = r'.word j) :
    r = r' := by
  apply Vector.ext
  intro k hk
  have hj : k / 4 < size / 4 := by omega
  have hbyte := byte_word r ⟨k / 4, hj⟩ (Nat.mod_lt k (by decide))
  rw [hw, byte_word r' ⟨k / 4, hj⟩ (Nat.mod_lt k (by decide))] at hbyte
  simpa [get_eq_getElem, Nat.div_add_mod] using hbyte.symm

theorem eq_of_wordColumn (h : 4 ∣ size) {records records' : List (Record size)}
    (hlen : records.length = records'.length)
    (hw : ∀ j, wordColumn j records = wordColumn j records') : records = records' := by
  apply List.ext_getElem hlen
  intro i hi hi'
  apply eq_of_word h
  intro j
  have hcolumn := List.getElem_of_eq (hw j) (by simpa using hi)
  simpa [wordColumn] using hcolumn

theorem wordColumn_ofWordColumns {n : Nat} (h : 4 ∣ size)
    (columns : Vector (Vector UInt32 n) (size / 4)) (j : Fin (size / 4)) :
    wordColumn j (ofWordColumns h columns) = (columns.get j).toList := by
  apply List.ext_getElem
  · simp [ofWordColumns]
  · intro i hi hi'
    simp only [wordColumn, List.getElem_map]
    apply Word.eq_of_byte
    intro b hb
    have hq : (4 * j.val + b) / 4 = j := by omega
    have hr : (4 * j.val + b) % 4 = b := by omega
    rw [byte_word _ _ hb]
    simp [ofWordColumns, get_eq_getElem, hq, hr]

theorem ofWordColumns_wordColumn (h : 4 ∣ size) (records : List (Record size)) :
    ofWordColumns h (Vector.ofFn fun j => (⟨(wordColumn j records).toArray, by simp⟩ :
      Vector UInt32 records.length)) = records := by
  apply eq_of_wordColumn h
  · simp [ofWordColumns]
  · intro j
    rw [wordColumn_ofWordColumns]
    simp [get_eq_getElem]

end Record
end VertexPack
