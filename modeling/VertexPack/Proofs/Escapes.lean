import VertexPack.Proofs.Cost
import VertexPack.Proofs.Payload
import Mathlib.Data.List.Forall2

/-! Both directions between a group and its bytes at one width. What was packed is unpacked again;
what was unpacked is packed again in no more bytes, and in fewer exactly where an entry that would
have fitted into its field stands behind the fields. -/
namespace VertexPack

theorem countP_of_forall₂ {α β : Type} {p : α → Prop} {q : β → Prop} [DecidablePred p]
    [DecidablePred q] {xs : List α} {ys : List β}
    (h : List.Forall₂ (fun x y => p x → q y) xs ys) :
    xs.countP (p ·) ≤ ys.countP (q ·) ∧ (xs.countP (p ·) = ys.countP (q ·) ↔
      List.Forall₂ (fun x y => q y → p x) xs ys) := by
  induction h with
  | nil => exact ⟨Nat.le_refl 0, fun _ => .nil, fun _ => rfl⟩
  | @cons x y xs ys hxy _ ih =>
    obtain ⟨hle, heq⟩ := ih
    rw [List.forall₂_cons, ← heq]
    by_cases hx : p x
    · simp [hx, hxy hx, hle]
    · by_cases hy : q y
      · -- one more on the right, where there were no fewer
        simp [hx, hy]
        omega
      · simp [hx, hy, hle]

namespace Width

def leadingFields (w : Width) (bs : List UInt8) : List UInt8 := w.fields (bs.take w.fixedSize)

/-- The byte behind the fields that belongs to field `i`, if that is all ones: one byte for every
such field before it stands in front. -/
def escaped (w : Width) (bs : List UInt8) (i : Nat) : UInt8 :=
  (bs.drop w.fixedSize).getD (((w.leadingFields bs).take i).count w.sentinel) 0

/-- Some field announces a byte that would have fitted into it. -/
def Needless (w : Width) (bs : List UInt8) : Prop :=
  w.HasFields ∧ ∃ i < 16, (w.leadingFields bs)[i]? = some w.sentinel ∧ w.escaped bs i < w.sentinel

theorem join_fields {w : Width} (hw : w.HasFields) (b : UInt8) :
    w.join ((List.range w.perByte).map (w.field b)) = b := by
  have hjoin : ∀ i : Fin 256,
      join .two ((List.range 4).map (field .two (UInt8.ofNat i))) = UInt8.ofNat i ∧
        join .four ((List.range 2).map (field .four (UInt8.ofNat i))) = UInt8.ofNat i := by
    decide +kernel
  have hb := hjoin ⟨b.toNat, b.toNat_lt⟩
  simp only [UInt8.ofNat_toNat] at hb
  rcases hw with rfl | rfl
  · exact hb.1
  · exact hb.2

theorem le_sentinel_of_mem_fields {w : Width} {fixed : List UInt8} {f : UInt8}
    (hf : f ∈ w.fields fixed) : f ≤ w.sentinel := by
  obtain ⟨b, _, hf⟩ := List.mem_flatMap.1 hf
  obtain ⟨i, _, rfl⟩ := List.mem_map.1 hf
  exact UInt8.and_le_right

end Width

namespace Group
open Width
variable {w : Width} {g : Group} {s : UInt8} {fs es bs : List UInt8}

theorem getElem_resolve (es : List UInt8) {i : Nat} (hi : i < (resolve s fs es).length)
    (hf : i < fs.length) :
    (resolve s fs es)[i] = if fs[i] = s then es.getD ((fs.take i).count s) 0 else fs[i] := by
  induction fs generalizing es i with
  | nil => cases hf
  | cons f fs ih =>
    by_cases hs : f = s
    · subst hs
      cases i with
      | zero => cases es <;> simp [resolve]
      | succ i =>
        have hnext := ih es.tail (i := i) (by simpa [resolve] using hi)
          (Nat.lt_of_succ_lt_succ hf)
        cases es <;> simpa [resolve] using hnext
    · cases i with
      | zero => simp [resolve, hs]
      | succ i =>
        have hnext := ih es (i := i) (by simpa [resolve, hs] using hi)
          (Nat.lt_of_succ_lt_succ hf)
        simpa [resolve, hs] using hnext

theorem forall₂_resolve (hfs : ∀ f ∈ fs, f ≤ s) :
    List.Forall₂ (fun v f => s ≤ v → f = s) (resolve s fs es) fs := by
  induction fs generalizing es with
  | nil => exact .nil
  | cons f fs ih =>
    obtain ⟨hf, hfs⟩ := List.forall_mem_cons.1 hfs
    rw [resolve]
    split
    · exact .cons (fun _ => ‹_›) (ih hfs)
    · exact .cons (fun hs => UInt8.le_antisymm hf hs) (ih hfs)

/-- Where every byte behind the fields is needed, the fields are the entries as far as they fit, and
the bytes are the entries that do not. -/
theorem resolve_canonical (hfs : ∀ f ∈ fs, f ≤ s) (hes : es.length = fs.count s)
    (h : List.Forall₂ (fun v f => f = s → s ≤ v) (resolve s fs es) fs) :
    (resolve s fs es).map (min · s) = fs ∧ (resolve s fs es).filter (s ≤ ·) = es := by
  induction fs generalizing es with
  | nil => exact ⟨rfl, (List.eq_nil_of_length_eq_zero hes).symm⟩
  | cons f fs ih =>
    obtain ⟨hf, hfs⟩ := List.forall_mem_cons.1 hfs
    -- A field of all ones takes the next byte behind the fields, any other none.
    by_cases hs : f = s
    · subst hs
      cases es with
      | nil => simp at hes
      | cons e es =>
        simp only [resolve, if_true, List.headD_cons, List.tail_cons, List.forall₂_cons] at h ⊢
        obtain ⟨hfirst, hrest⟩ := h
        have he : f ≤ e := hfirst trivial
        obtain ⟨hfields, hbytes⟩ := ih hfs (by simpa using hes) hrest
        simp [hfields, hbytes, min_of_le he, he]
    · simp only [resolve, if_neg hs, List.forall₂_cons] at h ⊢
      have hlt : f < s := UInt8.lt_of_le_of_ne hf hs
      obtain ⟨hfields, hbytes⟩ := ih hfs (by simpa [List.count_cons, hs] using hes) h.2
      simp [hfields, hbytes, min_of_lt hlt, UInt8.not_le.2 hlt]

theorem packFields_eq (g : Group) (w : Width) :
    g.packFields w = (chunks w.perByte (g.toList.map (min · w.sentinel))).map w.join := by
  rw [chunks_map, List.map_map, packFields]
  congr 1
  funext entries
  exact w.packByte_eq_join entries

theorem packFields_of_fields (hw : w.HasFields) {fixed : List UInt8}
    (h : g.toList.map (min · w.sentinel) = w.fields fixed) : g.packFields w = fixed := by
  have hpos : 0 < w.perByte := by rcases hw with rfl | rfl <;> decide
  rw [packFields_eq, h, fields, chunks_flatMap hpos (by simp), List.map_map]
  exact (List.map_congr_left fun b _ => join_fields hw b).trans (List.map_id fixed)

theorem FieldForm.leadingFields_length (hw : w.HasFields) (hform : FieldForm w g bs) :
    (w.leadingFields bs).length = 16 := by
  obtain ⟨⟨fixed, escaped, hfixed, -, rfl⟩, -⟩ := (fieldForm_iff hw g bs).1 hform
  rw [leadingFields, List.take_left' hfixed, fields_length hw hfixed]

theorem FieldForm.getElem_of_sentinel (hw : w.HasFields) (hform : FieldForm w g bs) {i : Nat}
    (hi : i < g.toList.length) (hf : i < (w.leadingFields bs).length)
    (hs : (w.leadingFields bs)[i] = w.sentinel) : g.toList[i] = w.escaped bs i := by
  have hvalues := ((fieldForm_iff hw g bs).1 hform).2
  have hget := getElem_resolve _ (hvalues ▸ hi) hf
  rw [if_pos hs] at hget
  rw [Width.escaped, ← hget]
  simp only [hvalues, leadingFields]

theorem FieldForm.not_needless_iff (hw : w.HasFields) (hform : FieldForm w g bs) :
    ¬ w.Needless bs ↔
      List.Forall₂ (fun v f => f = w.sentinel → w.sentinel ≤ v) g.toList (w.leadingFields bs) := by
  have hfields := hform.leadingFields_length hw
  have hlen : g.toList.length = (w.leadingFields bs).length := by
    rw [hfields, Vector.length_toList]
  rw [List.forall₂_iff_get]
  constructor
  · intro hneeded
    refine ⟨hlen, fun i hi hf hs => ?_⟩
    simp only [List.get_eq_getElem] at hs ⊢
    rw [hform.getElem_of_sentinel hw hi hf hs, ← UInt8.not_lt]
    intro hlt
    exact hneeded ⟨hw, i, hfields ▸ hf, by rw [List.getElem?_eq_getElem hf, hs], hlt⟩
  · rintro ⟨-, hneeded⟩ ⟨-, i, hi, hs, hlt⟩
    have hf : i < (w.leadingFields bs).length := hfields.symm ▸ hi
    rw [List.getElem?_eq_getElem hf, Option.some.injEq] at hs
    have hle := hneeded i (hlen.symm ▸ hf) hf hs
    rw [List.get_eq_getElem, hform.getElem_of_sentinel hw (hlen.symm ▸ hf) hf hs] at hle
    exact UInt8.not_lt.2 hle hlt

theorem FieldForm.length_eq (hw : w.HasFields) (hform : FieldForm w g bs) :
    bs.length = w.fixedSize + (w.leadingFields bs).countP (· = w.sentinel) := by
  obtain ⟨⟨fixed, escaped, hfixed, hcount, rfl⟩, -⟩ := (fieldForm_iff hw g bs).1 hform
  rw [List.length_append, hfixed, hcount, leadingFields, List.take_left' hfixed]
  rfl

theorem FieldForm.forall₂ (hw : w.HasFields) (hform : FieldForm w g bs) :
    List.Forall₂ (fun v f => w.sentinel ≤ v → f = w.sentinel) g.toList (w.leadingFields bs) := by
  rw [((fieldForm_iff hw g bs).1 hform).2]
  exact forall₂_resolve fun f hf => le_sentinel_of_mem_fields hf

theorem FieldForm.length_eq_iff (hw : w.HasFields) (hform : FieldForm w g bs) :
    (g.packFields w ++ g.escapes w).length = bs.length ↔ ¬ w.Needless bs := by
  rw [hform.not_needless_iff hw, ← (countP_of_forall₂ (hform.forall₂ hw)).2, pack_length hw,
    hform.length_eq hw, Nat.add_left_cancel_iff, atLeast]

theorem FieldForm.eq_of_not_needless (hw : w.HasFields) (hform : FieldForm w g bs)
    (hneeded : ¬ w.Needless bs) : g.packFields w ++ g.escapes w = bs := by
  rw [hform.not_needless_iff hw] at hneeded
  obtain ⟨⟨fixed, escaped, hfixed, hcount, rfl⟩, hvalues⟩ := (fieldForm_iff hw g bs).1 hform
  rw [leadingFields, List.take_left' hfixed, hvalues] at hneeded
  rw [List.take_left' hfixed, List.drop_left' hfixed] at hvalues hneeded
  obtain ⟨hfields, hescapes⟩ := resolve_canonical
    (fun f hf => le_sentinel_of_mem_fields hf) hcount hneeded
  rw [packFields_of_fields hw (hvalues ▸ hfields), escapes, hvalues, hescapes]

/-- What the writer makes of a group that was unpacked from `taken`. -/
structure Repacked (w : Width) (taken packed : List UInt8) : Prop where
  length_le : packed.length ≤ taken.length
  eq_iff : packed = taken ↔ packed.length = taken.length
  length_eq_iff : packed.length = taken.length ↔ ¬ w.Needless taken

theorem FieldForm.repacked (hw : w.HasFields) (hform : FieldForm w g bs) :
    Repacked w bs (g.packFields w ++ g.escapes w) := by
  have hlength := hform.length_eq_iff hw
  refine ⟨?_, ⟨congrArg List.length, fun h => ?_⟩, hlength⟩
  · rw [pack_length hw]
    exact hform.le_length
  · exact hform.eq_of_not_needless hw (hlength.1 h)

theorem Repacked.refl (hw : ¬ w.HasFields) (bs : List UInt8) : Repacked w bs bs :=
  ⟨Nat.le_refl _, by simp, by simp [Needless, hw]⟩

theorem exists_pack?_of_form (hform : Form w g bs) :
    ∃ packed, g.pack? w = some packed ∧ Repacked w bs packed := by
  cases w with
  | one =>
    obtain ⟨hg, rfl⟩ := hform
    exact ⟨[], if_pos ((isZero_iff g).2 hg), .refl (by simp [HasFields]) []⟩
  | two => exact ⟨_, rfl, FieldForm.repacked (.inl rfl) hform⟩
  | four => exact ⟨_, rfl, FieldForm.repacked (.inr rfl) hform⟩
  | eight =>
    obtain rfl : bs = g.toList := hform
    exact ⟨_, rfl, .refl (by simp [HasFields]) _⟩

/-- A packed group takes at most 24 bytes and is unpacked from them, whatever follows. A group that
was unpacked is packed again at the same width, into the bytes that were taken if none of those
stands for an entry that would have fitted into its field, and into fewer bytes otherwise. -/
theorem pack_unpack (w : Width) :
    (∀ (g : Group) (bs : List UInt8), g.pack? w = some bs → bs.length ≤ 24 ∧
      ∀ (r : Reader) (suffix : List UInt8), r.rest = bs ++ suffix →
        ∃ r', unpack w r = .ok g r' ∧ r'.data = r.data ∧ r'.rest = suffix) ∧
    ∀ (r r' : Reader) (g : Group), unpack w r = .ok g r' →
      ∃ taken packed, r'.data = r.data ∧ r.rest = taken ++ r'.rest ∧
        g.pack? w = some packed ∧ Repacked w taken packed := by
  have hreads : Reads 0 (unpack w) (Form w) := unpack_reads w
  constructor
  · intro g bs hpack
    refine ⟨length_le_of_pack? hpack, fun r suffix hrest => ?_⟩
    obtain ⟨r', hmove, rfl⟩ := Reader.exists_moves hrest
    exact ⟨r', hreads.complete (form_of_pack? hpack) hmove (Nat.zero_le _), hmove.data_eq, rfl⟩
  · intro r r' g hunpack
    obtain ⟨taken, hform, hmove⟩ := hreads.sound hunpack
    obtain ⟨packed, hpack, hrepacked⟩ := exists_pack?_of_form hform
    exact ⟨taken, packed, hmove.data_eq, hmove.rest_eq, hpack, hrepacked⟩

/-- A two in a field of its own, and a two that stands behind the fields although it would have
fitted: the second is read from five bytes and packed again into four. -/
theorem pack_unpack_two :
    (∃ r', unpack .two (.ofBytes [128, 0, 0, 0, 7]) = .ok (ofList [2]) r' ∧ r'.rest = [7]) ∧
    ∃ taken packed, Reader.rest (.ofBytes [192, 0, 0, 0, 2, 7]) = taken ++ [7] ∧
      (ofList [2]).pack? .two = some packed ∧ packed.length < taken.length := by
  constructor
  · obtain ⟨-, hread⟩ := (pack_unpack .two).1 (ofList [2]) [128, 0, 0, 0] (by decide)
    obtain ⟨r', hunpack, -, hrest⟩ := hread (.ofBytes [128, 0, 0, 0, 7]) [7] rfl
    exact ⟨r', hunpack, hrest⟩
  · have hform : Form .two (ofList [2]) [192, 0, 0, 0, 2] :=
      (form_iff .two _ _).2 ⟨⟨[192, 0, 0, 0], [2], rfl, by decide, rfl⟩, by decide⟩
    have hunpack := (unpack_reads (h := 0) .two).complete hform
      (Reader.moves_skip (n := 5) (.ofBytes [192, 0, 0, 0, 2, 7])) (Nat.zero_le _)
    obtain ⟨taken, packed, -, hrest, hpack, hrepacked⟩ := (pack_unpack .two).2 _ _ _ hunpack
    refine ⟨taken, packed, hrest, hpack, Nat.lt_of_le_of_ne hrepacked.length_le fun heq => ?_⟩
    obtain rfl : taken = [192, 0, 0, 0, 2] := List.append_cancel_right hrest.symm
    exact hrepacked.length_eq_iff.1 heq ⟨.inl rfl, 0, by decide, by decide, by decide⟩

end Group
end VertexPack
