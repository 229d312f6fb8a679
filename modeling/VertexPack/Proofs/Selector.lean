import VertexPack.Layout
import Mathlib.Tactic.IntervalCases

/-! Selector headers. Widths are entered one after the other by setting bits of a zeroed
header; each place then names the width that was entered there, whichever came first. -/
namespace VertexPack.Width

/-- The width that a header names for group `i`; past its end all widths are `one`. -/
def named (header : List UInt8) (i : Nat) : Width := ofCode (header.getD (slot i) 0 >>> shift i)

def enterAt (header : List UInt8) (entry : Width × Nat) : List UInt8 :=
  header.modify (slot entry.2) (· ||| entry.1.slotBits entry.2)

def enter (header : List UInt8) : Nat → List Width → List UInt8
  | _, [] => header
  | i, w :: ws => enter (header.modify (slot i) (· ||| w.slotBits i)) (i + 1) ws

def header (ws : List Width) : List UInt8 := enter (List.replicate (headerSize ws.length) 0) 0 ws

theorem shiftRight_or_and (b c s : UInt8) :
    (b ||| c) >>> s &&& 3 = (b >>> s &&& 3) ||| (c >>> s &&& 3) := by
  rw [UInt8.shiftRight_or, ← UInt8.toBitVec_inj]
  ext i hi
  simp [Bool.and_or_distrib_right]

theorem ofCode_congr {b c : UInt8} (h : b &&& 3 = c &&& 3) : ofCode b = ofCode c := by
  rw [ofCode, h, ofCode]

theorem ofCode_eq_one_iff (b : UInt8) : ofCode b = one ↔ b &&& 3 = 0 := by
  have h : ∀ i : Fin 256, ofCode (UInt8.ofNat i) = one ↔ UInt8.ofNat i &&& 3 = 0 := by
    decide +kernel
  simpa using h ⟨b.toNat, b.toNat_lt⟩

theorem slotBits_shiftRight (w : Width) (i j : Nat) :
    w.slotBits i >>> shift j &&& 3 = if i % 4 = j % 4 then w.code.toUInt8 else 0 := by
  have hi := Nat.mod_lt i (by decide : 4 > 0)
  have hj := Nat.mod_lt j (by decide : 4 > 0)
  unfold slotBits shift
  generalize i % 4 = a at *
  generalize j % 4 = b at *
  interval_cases a <;> interval_cases b <;> cases w <;> decide

theorem ofCode_code (w : Width) (b : UInt8) (h : b &&& 3 = w.code.toUInt8) : ofCode b = w := by
  unfold ofCode
  rw [h]
  cases w <;> rfl

theorem getD_modify (header : List UInt8) (f : UInt8 → UInt8) (i j : Nat) (hi : i < header.length) :
    (header.modify i f).getD j 0 = if i = j then f (header.getD j 0) else header.getD j 0 := by
  simp only [List.getD_eq_getElem?_getD, List.getElem?_modify]
  by_cases h : i = j
  · subst h
    simp [hi]
  · simp [h]

theorem named_modify {header : List UInt8} {w : Width} {i : Nat} (hi : slot i < header.length)
    (hone : named header i = one) (j : Nat) :
    named (header.modify (slot i) (· ||| w.slotBits i)) j =
      if i = j then w else named header j := by
  unfold named at hone ⊢
  rw [getD_modify _ _ _ _ hi]
  by_cases hs : slot i = slot j
  · have hmod := slotBits_shiftRight w i j
    rw [if_pos hs]
    by_cases hij : i = j
    · subst hij
      rw [if_pos rfl] at hmod ⊢
      apply ofCode_code
      rw [shiftRight_or_and, (ofCode_eq_one_iff _).1 hone, hmod, UInt8.zero_or]
    · have hne : i % 4 ≠ j % 4 := by
        unfold slot at hs
        omega
      rw [if_neg hne] at hmod
      rw [if_neg hij]
      apply ofCode_congr
      rw [shiftRight_or_and, hmod, UInt8.or_zero]
  · have hij : i ≠ j := fun h => hs (by rw [h])
    rw [if_neg hs, if_neg hij]

@[simp] theorem enter_length (header : List UInt8) (i : Nat) (ws : List Width) :
    (enter header i ws).length = header.length := by
  induction ws generalizing header i with
  | nil => rfl
  | cons w ws ih => rw [enter, ih, List.length_modify]

theorem named_enter {header : List UInt8} {i : Nat} {ws : List Width}
    (hlen : i + ws.length ≤ 4 * header.length) (hone : ∀ j, i ≤ j → named header j = one)
    (j : Nat) :
    named (enter header i ws) j = if j < i then named header j else ws.getD (j - i) one := by
  induction ws generalizing header i with
  | nil =>
    by_cases hj : j < i
    · simp [enter, hj]
    · simp [enter, hj, hone j (Nat.le_of_not_lt hj)]
  | cons w ws ih =>
    rw [List.length_cons] at hlen
    have hi : slot i < header.length := by
      unfold slot
      omega
    have hnamed := named_modify (w := w) hi (hone i (Nat.le_refl i))
    -- Entering by `or` is right only because no later selector has been touched yet.
    have hone' (j : Nat) (hj : i + 1 ≤ j) :
        named (header.modify (slot i) (· ||| w.slotBits i)) j = one := by
      rw [hnamed, if_neg (by omega), hone j (by omega)]
    rw [enter, ih (by rw [List.length_modify]; omega) hone', hnamed]
    rcases Nat.lt_trichotomy j i with hlt | rfl | hgt
    · rw [if_pos (by omega), if_neg (by omega), if_pos hlt]
    · simp
    · rw [if_neg (by omega), if_neg (by omega), show j - i = (j - (i + 1)) + 1 by omega]
      simp

theorem named_replicate (n j : Nat) : named (List.replicate n 0) j = one := by
  have h : (List.replicate n (0 : UInt8)).getD (slot j) 0 = 0 := by
    by_cases hj : slot j < n <;> simp [hj]
  rw [named, h, ofCode_eq_one_iff, UInt8.zero_shiftRight, UInt8.zero_and]

@[simp] theorem header_length (ws : List Width) : (header ws).length = headerSize ws.length := by
  simp [header]

theorem named_header (ws : List Width) (i : Nat) : named (header ws) i = ws.getD i one := by
  have hlen : 0 + ws.length ≤ 4 * (List.replicate (headerSize ws.length) (0 : UInt8)).length := by
    rw [List.length_replicate, headerSize]
    omega
  rw [header, named_enter hlen fun j _ => named_replicate _ j]
  simp

theorem enter_eq_foldl (header : List UInt8) (i : Nat) (ws : List Width) :
    enter header i ws = (ws.zipIdx i).foldl enterAt header := by
  induction ws generalizing header i with
  | nil => rfl
  | cons w ws ih =>
    rw [enter, ih, List.zipIdx_cons, List.foldl_cons]
    rfl

theorem enterAt_comm (header : List UInt8) (e e' : Width × Nat) :
    enterAt (enterAt header e) e' = enterAt (enterAt header e') e := by
  unfold enterAt
  by_cases h : slot e.2 = slot e'.2
  · rw [h, List.modify_modify_eq, List.modify_modify_eq]
    congr 1
    funext b
    change b ||| e.1.slotBits e.2 ||| e'.1.slotBits e'.2 =
      b ||| e'.1.slotBits e'.2 ||| e.1.slotBits e.2
    rw [UInt8.or_assoc, UInt8.or_comm (e.1.slotBits e.2), UInt8.or_assoc]
  · exact List.modify_modify_ne _ _ _ h

/-- However the widths of a sequence are ordered when they are entered, each at its own place, the
header is the same. -/
theorem foldl_enterAt {ws : List Width} {entries : List (Width × Nat)}
    (h : entries.Perm ws.zipIdx) :
    entries.foldl enterAt (List.replicate (headerSize ws.length) 0) = header ws := by
  rw [header, enter_eq_foldl]
  exact h.foldl_eq' (fun e _ e' _ header => enterAt_comm header e e') _

theorem slot_lt_iff (header : List UInt8) (i : Nat) :
    slot i < header.length ↔ i < 4 * header.length := by
  unfold slot
  omega

theorem read_of_lt {header : List UInt8} {i : Nat} (h : i < 4 * header.length) :
    read header i = some (named header i) := by
  have hslot := (slot_lt_iff header i).2 h
  rw [read, named, List.getD_eq_getElem?_getD, List.getElem?_eq_getElem hslot]
  rfl

theorem read_eq_none_iff (header : List UInt8) (i : Nat) :
    read header i = none ↔ 4 * header.length ≤ i := by
  rw [read, Option.map_eq_none_iff, List.getElem?_eq_none_iff, ← Nat.not_lt, slot_lt_iff,
    Nat.not_lt]

/-- Widths that are entered into a zeroed header, in any order and each once, are read from it at
their places, and `one` from the places that are left; behind the header there is nothing to
read. -/
theorem read_entered :
    (∀ (ws : List Width) (entries : List (Width × Nat)), entries.Perm ws.zipIdx →
      ∃ header, entries.foldl enterAt (List.replicate (headerSize ws.length) 0) = header ∧
        header.length = headerSize ws.length ∧
        (∀ i w, ws[i]? = some w → slot i < header.length ∧ read header i = some w ∧
          ofCode (header.getD (slot i) 0 >>> shift i) = w) ∧
        ∀ i, ws.length ≤ i → i < 4 * headerSize ws.length → read header i = some one) ∧
    ∀ (header : List UInt8) (i : Nat), read header i = none ↔ 4 * header.length ≤ i := by
  refine ⟨fun ws entries h => ⟨header ws, foldl_enterAt h, header_length ws, ?_, ?_⟩,
    read_eq_none_iff⟩
  · intro i w hw
    have hi : i < 4 * (header ws).length := by
      have hlt := (List.getElem?_eq_some_iff.1 hw).1
      rw [header_length, headerSize]
      omega
    have hname : named (header ws) i = w := by
      rw [named_header, List.getD_eq_getElem?_getD, hw, Option.getD_some]
    refine ⟨(slot_lt_iff _ i).2 hi, ?_, hname⟩
    rw [read_of_lt hi, hname]
  · intro i hle hlt
    rw [← header_length] at hlt
    rw [read_of_lt hlt, named_header, List.getD_eq_getElem?_getD, List.getElem?_eq_none hle,
      Option.getD_none]

theorem read_entered_five :
    ∃ header, [(two, 4), (one, 1), (eight, 0), (two, 3), (four, 2)].foldl enterAt [0, 0] = header ∧
      read header 4 = some two ∧ read header 7 = some one ∧ read header 8 = none := by
  obtain ⟨hread, hnone⟩ := read_entered
  obtain ⟨header, henter, hlength, hplaces, hleft⟩ :=
    hread [eight, one, four, two, two] [(two, 4), (one, 1), (eight, 0), (two, 3), (four, 2)]
      (by decide)
  refine ⟨header, henter, (hplaces 4 two rfl).2.1, hleft 7 (by decide) (by decide), ?_⟩
  rw [hnone, hlength]
  decide

end VertexPack.Width
