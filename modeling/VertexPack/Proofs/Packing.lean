import VertexPack.Group
import VertexPack.Proofs.Chunks
import VertexPack.Proofs.Reading
import Mathlib.Data.List.OfFn
import Mathlib.Data.List.GetD

/-! The stored forms of a group. At the widths with fields an entry may be stored in two
ways, in its field or behind the fields; a reader takes both, and the writer chooses the
first wherever it can. -/
namespace VertexPack

namespace Width

def join (w : Width) (fields : List UInt8) : UInt8 :=
  fields.foldl (fun b v => (b <<< w.bits.toUInt8) ||| v) 0

def fieldAt (w : Width) (fixed : List UInt8) (i : Nat) : UInt8 :=
  w.field (fixed.getD (i / w.perByte) 0) (i % w.perByte)

theorem fieldAt_le_sentinel (w : Width) (fixed : List UInt8) (i : Nat) :
    w.fieldAt fixed i ≤ w.sentinel :=
  UInt8.and_le_right

theorem packByte_eq_join (w : Width) (entries : List UInt8) :
    w.packByte entries = w.join (entries.map (min · w.sentinel)) := by
  rw [packByte, join, List.foldl_map]

theorem exists_fin_of_le {v b : UInt8} (h : v ≤ b) : ∃ a : Fin (b.toNat + 1), v = UInt8.ofNat a :=
  ⟨⟨v.toNat, Nat.lt_succ_of_le (UInt8.le_iff_toNat_le.1 h)⟩, by simp⟩

theorem field_join_two {a b c d : UInt8} (ha : a ≤ 3) (hb : b ≤ 3) (hc : c ≤ 3) (hd : d ≤ 3)
    (r : Fin 4) : field .two (join .two [a, b, c, d]) r = [a, b, c, d][r] := by
  have fits : ∀ (a b c d r : Fin 4),
      field .two (join .two ([a, b, c, d].map fun x : Fin 4 => UInt8.ofNat x)) r =
        ([a, b, c, d].map fun x : Fin 4 => UInt8.ofNat x)[r] := by decide +kernel
  obtain ⟨a, rfl⟩ := exists_fin_of_le ha
  obtain ⟨b, rfl⟩ := exists_fin_of_le hb
  obtain ⟨c, rfl⟩ := exists_fin_of_le hc
  obtain ⟨d, rfl⟩ := exists_fin_of_le hd
  exact fits a b c d r

theorem field_join_four {a b : UInt8} (ha : a ≤ 15) (hb : b ≤ 15) (r : Fin 2) :
    field .four (join .four [a, b]) r = [a, b][r] := by
  have fits : ∀ (a b : Fin 16) (r : Fin 2),
      field .four (join .four ([a, b].map fun x : Fin 16 => UInt8.ofNat x)) r =
        ([a, b].map fun x : Fin 16 => UInt8.ofNat x)[r] := by decide +kernel
  obtain ⟨a, rfl⟩ := exists_fin_of_le ha
  obtain ⟨b, rfl⟩ := exists_fin_of_le hb
  exact fits a b r

theorem min_eq_ite (v b : UInt8) : min v b = if v ≤ b then v else b := rfl

theorem min_le_bound (v b : UInt8) : min v b ≤ b := by
  rw [min_eq_ite]
  split
  · assumption
  · exact UInt8.le_refl b

theorem min_of_le {v b : UInt8} (h : b ≤ v) : min v b = b := by
  rw [min_eq_ite]
  split
  · exact UInt8.le_antisymm ‹_› h
  · rfl

theorem min_of_lt {v b : UInt8} (h : v < b) : min v b = v := by
  rw [min_eq_ite, if_pos (UInt8.le_of_lt h)]

def HasFields (w : Width) : Prop := w = .two ∨ w = .four

theorem field_packByte {w : Width} (hw : w.HasFields) {entries : List UInt8}
    (h : entries.length = w.perByte) (r : Nat) (hr : r < entries.length) :
    w.field (w.packByte entries) r = min entries[r] w.sentinel := by
  rw [packByte_eq_join]
  rcases hw with rfl | rfl
  · match entries, h, hr with
    | [a, b, c, d], _, hr =>
      have hf := field_join_two (min_le_bound a 3) (min_le_bound b 3) (min_le_bound c 3)
        (min_le_bound d 3) ⟨r, hr⟩
      exact hf.trans (List.getElem_map (l := [a, b, c, d]) (i := r) (min · 3))
  · match entries, h, hr with
    | [a, b], _, hr =>
      have hf := field_join_four (min_le_bound a 15) (min_le_bound b 15) ⟨r, hr⟩
      exact hf.trans (List.getElem_map (l := [a, b]) (i := r) (min · 15))

end Width

namespace Group
open Width

theorem fieldAt_packFields {w : Width} (hw : w.HasFields) (g : Group) (i : Fin 16) :
    w.fieldAt (g.packFields w) i = min g[i] w.sentinel := by
  -- Entry `i` is field `i % perByte` of byte `i / perByte`, and no byte is left half full.
  have hper : 0 < w.perByte ∧ ceilDiv 16 w.perByte * w.perByte = 16 := by
    rcases hw with rfl | rfl <;> decide
  obtain ⟨hpos, hper⟩ := hper
  have hi := Nat.div_add_mod i w.perByte
  have hr := Nat.mod_lt i hpos
  have hq : i / w.perByte < ceilDiv 16 w.perByte := by
    rw [Nat.div_lt_iff_lt_mul hpos, hper]
    exact i.isLt
  have hroom : w.perByte * (i / w.perByte) + w.perByte ≤ 16 := by
    calc
      w.perByte * (i / w.perByte) + w.perByte = (i / w.perByte + 1) * w.perByte := by
        rw [Nat.add_mul, Nat.one_mul, Nat.mul_comm]
      _ ≤ ceilDiv 16 w.perByte * w.perByte := Nat.mul_le_mul_right _ hq
      _ = 16 := hper
  have hbyte : (g.packFields w).getD (i / w.perByte) 0 =
      w.packByte ((g.toList.drop (w.perByte * (i / w.perByte))).take w.perByte) := by
    rw [packFields, List.getD_eq_getElem _ _ (by simpa using hq), List.getElem_map, getElem_chunks]
  rw [fieldAt, hbyte, field_packByte hw (by simp; omega) _ (by simp; omega)]
  simp [hi]

/-- The bytes that an entry `v` with field `f` has behind the fields. -/
def EntryForm (w : Width) (f v : UInt8) (bs : List UInt8) : Prop :=
  if f = w.sentinel then bs = [v] else v = f ∧ bs = []

/-- Fields, then the entries that they announce, in order. -/
def FieldForm (w : Width) (g : Group) (bs : List UInt8) : Prop :=
  ∃ (fixed : List UInt8) (parts : Fin 16 → List UInt8), fixed.length = w.fixedSize ∧
    (∀ i : Fin 16, EntryForm w (w.fieldAt fixed i) g[i] (parts i)) ∧
    bs = fixed ++ (List.ofFn parts).flatten

def Form (w : Width) (g : Group) (bs : List UInt8) : Prop :=
  match w with
  | .one => g = Vector.replicate 16 0 ∧ bs = []
  | .two => FieldForm .two g bs
  | .four => FieldForm .four g bs
  | .eight => bs = g.toList

variable {h : Nat}

theorem unpackFields_reads (w : Width) : Reads h (unpackFields w) (FieldForm w) := by
  have entry (fixed : List UInt8) (i : Fin 16) :
      Reads h (if w.fieldAt fixed i = w.sentinel then Reader.byte else pure (w.fieldAt fixed i))
        (EntryForm w (w.fieldAt fixed i)) := by
    unfold EntryForm
    split
    · exact Reads.byte
    · exact Reads.pure _
  refine ((Reads.take w.fixedSize).bind fun a => Reads.ofFnM (entry a.1)).congr fun g bs => ?_
  constructor
  · rintro ⟨⟨fixed, hf⟩, u, v, rfl, ⟨parts, hparts, rfl⟩, rfl⟩
    exact ⟨fixed, parts, hf, hparts, rfl⟩
  · rintro ⟨fixed, parts, hf, hparts, rfl⟩
    exact ⟨⟨fixed, hf⟩, fixed, _, rfl, ⟨parts, hparts, rfl⟩, rfl⟩

theorem unpack_reads (w : Width) : Reads h (unpack w) (Form w) := by
  cases w with
  | one => exact Reads.pure _
  | two => exact unpackFields_reads .two
  | four => exact unpackFields_reads .four
  | eight =>
    refine ((Reads.take 16).map (f := fun a => (⟨a.1.toArray, by simp [a.2]⟩ : Group))).congr
      fun g bs => ?_
    constructor
    · rintro ⟨⟨u, hu⟩, rfl, rfl⟩
      rfl
    · rintro rfl
      exact ⟨⟨g.toList, by simp⟩, rfl, rfl⟩

theorem flatten_ofFn_singleton {n : Nat} (p : UInt8 → Bool) (v : Fin n → UInt8) :
    (List.ofFn fun i => if p (v i) then [v i] else []).flatten = (List.ofFn v).filter p := by
  induction n with
  | zero => simp
  | succ n ih =>
    rw [List.ofFn_succ, List.ofFn_succ, List.flatten_cons, ih, List.filter_cons]
    split <;> rfl

theorem packFields_length {w : Width} (hw : w.HasFields) (g : Group) :
    (g.packFields w).length = w.fixedSize := by
  rcases hw with rfl | rfl
  · simp [packFields]
    rfl
  · simp [packFields]
    rfl

theorem fieldForm_packFields {w : Width} (hw : w.HasFields) (g : Group) :
    FieldForm w g (g.packFields w ++ g.escapes w) := by
  refine ⟨g.packFields w, fun i => if w.sentinel ≤ g[i] then [g[i]] else [], ?_, fun i => ?_, ?_⟩
  · exact packFields_length hw g
  · rw [EntryForm, fieldAt_packFields hw]
    by_cases hs : w.sentinel ≤ g[i]
    · rw [min_of_le hs, if_pos rfl]
      exact if_pos hs
    · have hlt := UInt8.not_le.1 hs
      rw [min_of_lt hlt, if_neg (UInt8.ne_of_lt hlt)]
      exact ⟨rfl, if_neg hs⟩
  · have hf := flatten_ofFn_singleton (fun v => decide (w.sentinel ≤ v)) g.get
    rw [escapes, toList_eq_ofFn g, ← hf]
    simp only [decide_eq_true_eq]
    rfl

theorem isZero_iff (g : Group) : g.isZero = true ↔ g = Vector.replicate 16 0 := by
  constructor
  · intro hz
    apply Vector.ext
    intro i hi
    have hmem : g[i] ∈ g.toList := by simp
    rw [Vector.getElem_replicate]
    exact of_decide_eq_true (List.all_eq_true.1 hz g[i] hmem)
  · rintro rfl
    decide

/-- What the writer stores is one of the forms that the reader takes. -/
theorem form_of_pack? {g : Group} {w : Width} {bs : List UInt8} (h : g.pack? w = some bs) :
    Form w g bs := by
  cases w with
  | one =>
    rw [pack?] at h
    split at h
    · cases h
      exact ⟨(isZero_iff g).1 ‹_›, rfl⟩
    · cases h
  | two =>
    cases h
    exact fieldForm_packFields (.inl rfl) g
  | four =>
    cases h
    exact fieldForm_packFields (.inr rfl) g
  | eight =>
    cases h
    rfl

end Group
end VertexPack
