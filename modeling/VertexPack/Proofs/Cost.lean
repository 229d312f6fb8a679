import VertexPack.Proofs.Packing

/-! What a group costs. The chosen width is the shortest of all forms of the group, also
of those that the writer never makes, and smaller entries never cost more. -/
namespace VertexPack.Group

def atLeast (g : Group) (t : UInt8) : Nat := g.toList.countP (t ≤ ·)

/-- The least number of bytes in which a group can be stored. -/
def cost (g : Group) : Nat :=
  if g.isZero then 0 else min (min (4 + g.atLeast 3) (8 + g.atLeast 15)) 16

def payload (g : Group) : List UInt8 := (g.pack? g.select.1).getD []

variable {g g' : Group} {w : Width} {bs : List UInt8}

theorem escapes_length (g : Group) (w : Width) : (g.escapes w).length = g.atLeast w.sentinel := by
  rw [escapes, atLeast, List.countP_eq_length_filter]

theorem pack_length (hw : w.HasFields) (g : Group) :
    (g.packFields w ++ g.escapes w).length = w.fixedSize + g.atLeast w.sentinel := by
  rw [List.length_append, packFields_length hw, escapes_length]

theorem pack_two_length (g : Group) :
    (g.packFields .two ++ g.escapes .two).length = 4 + g.atLeast 3 := pack_length (.inl rfl) g

theorem pack_four_length (g : Group) :
    (g.packFields .four ++ g.escapes .four).length = 8 + g.atLeast 15 := pack_length (.inr rfl) g

theorem length_le_of_pack? (h : g.pack? w = some bs) : bs.length ≤ Layout.headroom := by
  have hescapes (t : UInt8) : g.atLeast t ≤ 16 :=
    Nat.le_trans List.countP_le_length (Nat.le_of_eq g.length_toList)
  have hthree := hescapes 3
  have hfifteen := hescapes 15
  unfold Layout.headroom
  cases w with
  | one =>
    rw [pack?] at h
    split at h
    · cases h
      exact Nat.zero_le _
    · cases h
  | two =>
    cases h
    rw [pack_two_length]
    omega
  | four =>
    cases h
    rw [pack_four_length]
    omega
  | eight =>
    cases h
    rw [Vector.length_toList]
    decide

/-- Only zeros are stored in no bytes; verbatim storage wins against no gain, and of two
packed widths that are equally good the narrower one. -/
theorem select_eq (g : Group) :
    g.select =
      if g.isZero then (.one, 0)
      else if 16 ≤ 4 + g.atLeast 3 ∧ 16 ≤ 8 + g.atLeast 15 then (.eight, 16)
      else if g.atLeast 3 ≤ 4 + g.atLeast 15 then (.two, 4 + g.atLeast 3)
      else (.four, 8 + g.atLeast 15) := by
  have h₂ := pack_two_length g
  have h₄ := pack_four_length g
  simp only [select, List.foldl_cons, List.foldl_nil, better, pack?, h₂, h₄, Layout.groupSize]
  by_cases hz : g.isZero = true
  · simp [hz]
  · simp only [hz, Bool.false_eq_true, if_false]
    by_cases h3 : 4 + g.atLeast 3 < 16
    · rw [if_pos h3]
      by_cases hlt : 8 + g.atLeast 15 < 4 + g.atLeast 3
      · rw [if_pos hlt, if_neg (by omega), if_neg (by omega)]
      · rw [if_neg hlt, if_neg (by omega), if_pos (by omega)]
    · rw [if_neg h3]
      by_cases h15 : 8 + g.atLeast 15 < 16
      · rw [if_pos h15, if_neg (by omega), if_neg (by omega)]
      · rw [if_neg h15, if_pos (by omega)]

theorem select_snd (g : Group) : g.select.2 = g.cost := by
  rw [select_eq, cost]
  by_cases hz : g.isZero = true
  · rw [if_pos hz, if_pos hz]
  · rw [if_neg hz, if_neg hz]
    split
    · omega
    · split
      · omega
      · omega

theorem select_eq_one_iff (g : Group) : g.select.1 = .one ↔ g.isZero = true := by
  rw [select_eq]
  by_cases hz : g.isZero = true
  · simp [hz]
  · rw [if_neg hz]
    split
    · simp [hz]
    · split
      · simp [hz]
      · simp [hz]

theorem cost_eq_zero_iff (g : Group) : g.cost = 0 ↔ g.isZero = true := by
  rw [cost]
  by_cases hz : g.isZero = true
  · simp [hz]
  · rw [if_neg hz, iff_false_right hz]
    omega

theorem exists_pack?_select (g : Group) :
    ∃ bs, g.pack? g.select.1 = some bs ∧ bs.length = g.cost := by
  rw [← select_snd, select_eq]
  by_cases hz : g.isZero = true
  · rw [if_pos hz]
    exact ⟨[], by simp [pack?, hz], rfl⟩
  · rw [if_neg hz]
    split
    · exact ⟨_, rfl, by simp⟩
    · split
      · exact ⟨_, rfl, pack_two_length g⟩
      · exact ⟨_, rfl, pack_four_length g⟩

theorem pack?_select (g : Group) : g.pack? g.select.1 = some g.payload := by
  obtain ⟨bs, hbs, -⟩ := exists_pack?_select g
  rw [payload, hbs, Option.getD_some]

@[simp] theorem payload_length (g : Group) : g.payload.length = g.cost := by
  obtain ⟨bs, hbs, hlen⟩ := exists_pack?_select g
  rw [payload, hbs, Option.getD_some, hlen]

theorem form_payload (g : Group) : Form g.select.1 g g.payload := form_of_pack? (pack?_select g)

theorem cost_le (g : Group) : g.cost ≤ 16 := by
  unfold cost
  split <;> omega

theorem countP_le_length_flatten {n : Nat} (p : UInt8 → Bool) (v : Fin n → UInt8)
    (parts : Fin n → List UInt8) (h : ∀ i, p (v i) = true → 1 ≤ (parts i).length) :
    (List.ofFn v).countP p ≤ (List.ofFn parts).flatten.length := by
  induction n with
  | zero => simp
  | succ n ih =>
    have hhead := h 0
    have htail := ih (fun i => v i.succ) (fun i => parts i.succ) fun i => h i.succ
    rw [List.ofFn_succ, List.ofFn_succ, List.countP_cons, List.flatten_cons, List.length_append]
    split
    · have := hhead ‹_›
      omega
    · omega

theorem FieldForm.le_length (h : FieldForm w g bs) :
    w.fixedSize + g.atLeast w.sentinel ≤ bs.length := by
  obtain ⟨fixed, parts, hfixed, hparts, rfl⟩ := h
  have hescaped (i : Fin 16) (hi : decide (w.sentinel ≤ g.get i) = true) :
      1 ≤ (parts i).length := by
    have hform : EntryForm w (w.fieldAt fixed i) (g.get i) (parts i) := hparts i
    have hfield := w.fieldAt_le_sentinel fixed i
    unfold EntryForm at hform
    split at hform
    · rw [hform]
      simp
    · obtain ⟨hv, -⟩ := hform
      rw [decide_eq_true_eq, hv] at hi
      exact absurd (UInt8.le_antisymm hfield hi) ‹_›
  have hcount := countP_le_length_flatten (fun v => decide (w.sentinel ≤ v)) g.get parts hescaped
  rw [List.length_append, hfixed, atLeast, toList_eq_ofFn]
  omega

theorem cost_le_of_hasFields (hw : w.HasFields) (g : Group) :
    g.cost ≤ w.fixedSize + g.atLeast w.sentinel := by
  have hsizes : g.cost ≤ 4 + g.atLeast 3 ∧ g.cost ≤ 8 + g.atLeast 15 := by
    unfold cost
    split <;> omega
  rcases hw with rfl | rfl
  · exact hsizes.1
  · exact hsizes.2

/-- No form of a group is shorter than the one that the writer chooses. -/
theorem cost_le_of_form (h : Form w g bs) : g.cost ≤ bs.length := by
  cases w with
  | one =>
    rw [cost, if_pos ((isZero_iff g).2 h.1)]
    exact Nat.zero_le _
  | two => exact (cost_le_of_hasFields (.inl rfl) g).trans (FieldForm.le_length h)
  | four => exact (cost_le_of_hasFields (.inr rfl) g).trans (FieldForm.le_length h)
  | eight =>
    have hlen : bs.length = 16 := by
      rw [show bs = g.toList from h]
      simp
    exact hlen ▸ cost_le g

theorem countP_ofFn_mono {n : Nat} {u v : Fin n → UInt8} (h : ∀ i, u i ≤ v i) (t : UInt8) :
    (List.ofFn u).countP (t ≤ ·) ≤ (List.ofFn v).countP (t ≤ ·) := by
  induction n with
  | zero => simp
  | succ n ih =>
    have htail := ih fun i => h i.succ
    have hhead : t ≤ u 0 → t ≤ v 0 := fun ht => UInt8.le_trans ht (h 0)
    rw [List.ofFn_succ, List.ofFn_succ, List.countP_cons, List.countP_cons]
    by_cases ht : t ≤ u 0
    · simp only [ht, hhead ht, decide_true, if_true]
      omega
    · simp only [ht, decide_false, Bool.false_eq_true, if_false]
      omega

theorem atLeast_mono (h : ∀ i, g.get i ≤ g'.get i) (t : UInt8) : g.atLeast t ≤ g'.atLeast t := by
  rw [atLeast, atLeast, toList_eq_ofFn, toList_eq_ofFn]
  exact countP_ofFn_mono h t

theorem isZero_iff_get (g : Group) : g.isZero = true ↔ ∀ i, g.get i = 0 := by
  rw [isZero_iff]
  constructor
  · rintro rfl i
    exact Vector.getElem_replicate i.isLt
  · intro hzero
    apply Vector.ext
    intro i hi
    rw [Vector.getElem_replicate]
    exact hzero ⟨i, hi⟩

/-- Smaller entries never cost more. -/
theorem cost_mono (h : ∀ i, g.get i ≤ g'.get i) : g.cost ≤ g'.cost := by
  have h3 := atLeast_mono h 3
  have h15 := atLeast_mono h 15
  have hzero : g'.isZero = true → g.isZero = true := by
    rw [isZero_iff_get, isZero_iff_get]
    intro hz i
    exact UInt8.le_antisymm (hz i ▸ h i) UInt8.zero_le
  unfold cost
  by_cases hz' : g'.isZero = true
  · rw [if_pos (hzero hz')]
    exact Nat.zero_le _
  · rw [if_neg hz']
    split
    · exact Nat.zero_le _
    · omega

theorem select_fst_iff (hz : g.isZero = false) :
    (g.select.1 = .eight ↔ 16 ≤ 4 + g.atLeast 3 ∧ 16 ≤ 8 + g.atLeast 15) ∧
    (g.select.1 = .two ↔ 4 + g.atLeast 3 < 16 ∧ 4 + g.atLeast 3 ≤ 8 + g.atLeast 15) ∧
    (g.select.1 = .four ↔ 8 + g.atLeast 15 < 16 ∧ 8 + g.atLeast 15 < 4 + g.atLeast 3) := by
  rw [select_eq, hz, if_neg Bool.false_ne_true]
  split
  · simp only [true_iff, reduceCtorEq, false_iff]
    omega
  · split
    · simp only [true_iff, reduceCtorEq, false_iff]
      omega
    · simp only [true_iff, reduceCtorEq, false_iff]
      omega

/-- The width and the size that are chosen for a group: no bytes for zeros, otherwise the least of
three sizes, with a rule for each tie. The group takes that size at that width, no width takes less,
and smaller entries never take more. -/
theorem select_optimal (g : Group) :
    ((∀ i, g.get i = 0) → g.select = (.one, 0)) ∧
    ((∃ i, g.get i ≠ 0) →
      g.select.2 = min (min (4 + g.atLeast 3) (8 + g.atLeast 15)) 16 ∧
      (g.select.1 = .eight ↔ 16 ≤ 4 + g.atLeast 3 ∧ 16 ≤ 8 + g.atLeast 15) ∧
      (g.select.1 = .two ↔ 4 + g.atLeast 3 < 16 ∧ 4 + g.atLeast 3 ≤ 8 + g.atLeast 15) ∧
      (g.select.1 = .four ↔ 8 + g.atLeast 15 < 16 ∧ 8 + g.atLeast 15 < 4 + g.atLeast 3)) ∧
    (∃ bs, g.pack? g.select.1 = some bs ∧ bs.length = g.select.2) ∧
    (∀ w bs, g.pack? w = some bs → g.select.2 ≤ bs.length) ∧
    ∀ g' : Group, (∀ i, g'.get i ≤ g.get i) → g'.select.2 ≤ g.select.2 := by
  refine ⟨fun hzero => ?_, fun hne => ?_, ?_, fun w bs hpack => ?_, fun g' hle => ?_⟩
  · rw [select_eq, if_pos ((isZero_iff_get g).2 hzero)]
  · have hz : g.isZero = false := by
      rw [← Bool.not_eq_true, isZero_iff_get]
      exact not_forall.2 hne
    refine ⟨?_, select_fst_iff hz⟩
    rw [select_snd, cost, hz, if_neg Bool.false_ne_true]
  · rw [select_snd]
    exact exists_pack?_select g
  · rw [select_snd]
    exact cost_le_of_form (form_of_pack? hpack)
  · rw [select_snd, select_snd]
    exact cost_mono hle

/-- Both ties: four entries that widths two and four store in eight bytes each, and eight large ones
beside four small ones, which no width stores in less than sixteen. -/
theorem select_optimal_ties :
    (ofList [3, 3, 3, 3, 1]).select.1 = .two ∧
      (ofList [64, 64, 64, 64, 64, 64, 64, 64, 5, 5, 5, 5]).select.1 = .eight := by
  constructor
  · obtain ⟨-, hselect, -⟩ := select_optimal (ofList [3, 3, 3, 3, 1])
    exact (hselect ⟨0, by decide⟩).2.2.1.2 (by decide)
  · obtain ⟨-, hselect, -⟩ :=
      select_optimal (ofList [64, 64, 64, 64, 64, 64, 64, 64, 5, 5, 5, 5])
    exact (hselect ⟨0, by decide⟩).2.1.2 (by decide)

end VertexPack.Group
