import VertexPack.Proofs.Packing

/-! The payload of a group: which byte strings a width admits, and the entries that they stand
for. A string is a form of a group exactly if it is admitted and the entries are those of the
group. -/
namespace VertexPack

namespace Width

def fields (w : Width) (fixed : List UInt8) : List UInt8 :=
  fixed.flatMap fun b => (List.range w.perByte).map (w.field b)

theorem fields_eq_ofFn {w : Width} (hw : w.HasFields) {fixed : List UInt8}
    (h : fixed.length = w.fixedSize) :
    w.fields fixed = List.ofFn fun i : Fin 16 => w.fieldAt fixed i := by
  rcases hw with rfl | rfl
  · match fixed, h with
    | [_, _, _, _], _ => rfl
  · match fixed, h with
    | [_, _, _, _, _, _, _, _], _ => rfl

end Width

namespace Group
open Width

/-- So many bytes of fields, and behind them a byte for each field that is `s`. -/
def IsEscaped (w : Width) (size : Nat) (s : UInt8) (bs : List UInt8) : Prop :=
  ∃ fixed escaped, fixed.length = size ∧ escaped.length = (w.fields fixed).count s ∧
    bs = fixed ++ escaped

/-- The byte strings that can stand for a group at a width. -/
def IsPayload : Width → List UInt8 → Prop
  | .one, bs => bs = []
  | .two, bs => IsEscaped .two 4 3 bs
  | .four, bs => IsEscaped .four 8 15 bs
  | .eight, bs => bs.length = 16

/-- The fields, every one that is `s` replaced by the next of the escaped bytes. -/
def resolve (s : UInt8) : List UInt8 → List UInt8 → List UInt8
  | [], _ => []
  | f :: fs, es => if f = s then es.headD 0 :: resolve s fs es.tail else f :: resolve s fs es

def entries : Width → List UInt8 → List UInt8
  | .one, _ => List.replicate 16 0
  | .two, bs => resolve 3 (fields .two (bs.take 4)) (bs.drop 4)
  | .four, bs => resolve 15 (fields .four (bs.take 8)) (bs.drop 8)
  | .eight, bs => bs

theorem resolve_length (s : UInt8) (fs es : List UInt8) : (resolve s fs es).length = fs.length := by
  induction fs generalizing es with
  | nil => rfl
  | cons f fs ih =>
    by_cases hf : f = s
    · simp [resolve, hf, ih]
    · simp [resolve, hf, ih]

/-- Related parts, laid end to end, are a first part and then the parts of the rest. -/
theorem exists_parts_succ_iff {n : Nat} {R : Fin (n + 1) → List UInt8 → Prop} {bs : List UInt8} :
    (∃ parts : Fin (n + 1) → List UInt8, (∀ i, R i (parts i)) ∧ bs = (List.ofFn parts).flatten) ↔
      ∃ u v, R 0 u ∧ (∃ parts : Fin n → List UInt8,
        (∀ i, R i.succ (parts i)) ∧ v = (List.ofFn parts).flatten) ∧ bs = u ++ v := by
  constructor
  · intro h
    obtain ⟨parts, hparts, rfl⟩ := h
    refine ⟨parts 0, _, hparts 0, ⟨fun i => parts i.succ, fun i => hparts i.succ, rfl⟩, ?_⟩
    rw [List.ofFn_succ, List.flatten_cons]
  · intro h
    obtain ⟨u, v, hu, ⟨parts, hparts, rfl⟩, rfl⟩ := h
    refine ⟨Fin.cons u parts, fun i => ?_, by simp⟩
    cases i using Fin.cases with
    | zero => exact hu
    | succ i => exact hparts i

theorem entryForms_iff (w : Width) {n : Nat} (f v : Fin n → UInt8) (es : List UInt8) :
    (∃ parts : Fin n → List UInt8, (∀ i, EntryForm w (f i) (v i) (parts i)) ∧
      es = (List.ofFn parts).flatten) ↔
      es.length = (List.ofFn f).count w.sentinel ∧
        List.ofFn v = resolve w.sentinel (List.ofFn f) es := by
  induction n generalizing es with
  | zero => simp [resolve]
  | succ n ih =>
    rw [exists_parts_succ_iff (R := fun i => EntryForm w (f i) (v i))]
    simp only [ih, List.ofFn_succ, List.count_cons, resolve]
    -- The first field takes a byte for itself, or it is an entry and takes none.
    by_cases hf : f 0 = w.sentinel
    · cases es with
      | nil => simp [EntryForm, hf]
      | cons e es => simp [EntryForm, hf, and_assoc, and_left_comm, eq_comm]
    · have hentry : ∀ u, EntryForm w (f 0) (v 0) u ↔ v 0 = f 0 ∧ u = [] := by simp [EntryForm, hf]
      simp only [hentry, hf, ↓reduceIte, beq_iff_eq, Nat.add_zero, List.cons.injEq]
      constructor
      · intro hforms
        obtain ⟨u, rest, ⟨hzero, rfl⟩, hrest, rfl⟩ := hforms
        exact ⟨hrest.1, hzero, hrest.2⟩
      · intro hform
        exact ⟨[], es, ⟨hform.2.1, rfl⟩, ⟨hform.1, hform.2.2⟩, rfl⟩

theorem fieldForm_iff {w : Width} (hw : w.HasFields) (g : Group) (bs : List UInt8) :
    FieldForm w g bs ↔ IsEscaped w w.fixedSize w.sentinel bs ∧
      g.toList = resolve w.sentinel (w.fields (bs.take w.fixedSize)) (bs.drop w.fixedSize) := by
  have hentries := entryForms_iff w (n := 16)
  constructor
  · intro hform
    obtain ⟨fixed, parts, hfixed, hparts, rfl⟩ := hform
    have h := (hentries _ g.get _).1 ⟨parts, hparts, rfl⟩
    rw [← fields_eq_ofFn hw hfixed, ← toList_eq_ofFn] at h
    rw [List.take_left' hfixed, List.drop_left' hfixed]
    exact ⟨⟨fixed, _, hfixed, h.1, rfl⟩, h.2⟩
  · intro hform
    obtain ⟨⟨fixed, escaped, hfixed, hlen, rfl⟩, hvalues⟩ := hform
    rw [List.take_left' hfixed, List.drop_left' hfixed, fields_eq_ofFn hw hfixed,
      toList_eq_ofFn] at hvalues
    rw [fields_eq_ofFn hw hfixed] at hlen
    obtain ⟨parts, hparts, rfl⟩ := (hentries _ g.get escaped).2 ⟨hlen, hvalues⟩
    exact ⟨fixed, parts, hfixed, hparts, rfl⟩

theorem form_iff (w : Width) (g : Group) (bs : List UInt8) :
    Form w g bs ↔ IsPayload w bs ∧ g.toList = entries w bs := by
  cases w with
  | one => rw [Form, IsPayload, entries, ← Vector.toList_replicate, Vector.toList_inj, and_comm]
  | two => exact fieldForm_iff (.inl rfl) g bs
  | four => exact fieldForm_iff (.inr rfl) g bs
  | eight =>
    constructor
    · intro hform
      rw [Form] at hform
      exact ⟨by simp [IsPayload, hform], hform.symm⟩
    · intro hform
      exact hform.2.symm

theorem fields_length {w : Width} (hw : w.HasFields) {fixed : List UInt8}
    (h : fixed.length = w.fixedSize) : (w.fields fixed).length = 16 := by
  rw [fields_eq_ofFn hw h, List.length_ofFn]

theorem entries_length {w : Width} {bs : List UInt8} (h : IsPayload w bs) :
    (entries w bs).length = 16 := by
  cases w with
  | one => rfl
  | two =>
    obtain ⟨fixed, escaped, hfixed, _, rfl⟩ := h
    rw [entries, resolve_length, List.take_left' hfixed, fields_length (.inl rfl) hfixed]
  | four =>
    obtain ⟨fixed, escaped, hfixed, _, rfl⟩ := h
    rw [entries, resolve_length, List.take_left' hfixed, fields_length (.inr rfl) hfixed]
  | eight => exact h

theorem exists_form {w : Width} {bs : List UInt8} (h : IsPayload w bs) :
    ∃ g : Group, Form w g bs ∧ g.toList = entries w bs :=
  ⟨⟨(entries w bs).toArray, by simpa using entries_length h⟩,
    (form_iff w _ bs).2 ⟨h, by simp⟩, by simp⟩

end Group
end VertexPack
