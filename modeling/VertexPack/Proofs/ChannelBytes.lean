import VertexPack.Channel
import VertexPack.Proofs.Appending
import VertexPack.Proofs.Cost
import VertexPack.Proofs.Selector

/-! The bytes of one channel of a block: its selector header, then its groups at their
chosen widths. The room that writing them takes is the room before the last group and the
headroom that is demanded there. -/
namespace VertexPack.Channel
open Width

def bytes (groups : List Group) : List UInt8 :=
  header (groups.map (·.select.1)) ++ groups.flatMap Group.payload

/-- The room that has to be free before the groups are written, header aside. -/
def room : List Group → Nat
  | [] => 0
  | g :: gs => max Layout.headroom (g.cost + room gs)

def afterGroup {σ : Type} (obs : Observer σ) (channel header i : Nat) (g : Group) (s : Session σ) :
    Session σ where
  writer := (⟨s.writer.written.modify (header + slot i) (· ||| g.select.1.slotBits i),
    s.writer.spare⟩ : Writer).push g.payload
  observed := obs.record s.observed (.group channel g.select.1 g.select.2)
  notices := s.notices

theorem bytes_length (groups : List Group) :
    (bytes groups).length = headerSize groups.length + (groups.map Group.cost).sum := by
  simp [bytes]

theorem cost_sum_le_room (groups : List Group) : (groups.map Group.cost).sum ≤ room groups := by
  induction groups with
  | nil => exact Nat.le_refl 0
  | cons g gs ih =>
    rw [List.map_cons, List.sum_cons, room]
    omega

theorem room_le (groups : List Group) :
    room groups ≤ (groups.map Group.cost).sum + Layout.headroom := by
  induction groups with
  | nil => exact Nat.zero_le _
  | cons g gs ih =>
    rw [List.map_cons, List.sum_cons, room]
    omega

variable {σ : Type} {obs : Observer σ} {channel start i : Nat} {g : Group} {s : Session σ}

theorem encodeFrom_cons_of_le {gs : List Group} (hroom : Layout.headroom ≤ s.writer.remaining)
    (hslot : start + slot i < s.writer.position) :
    encodeFrom obs channel start i (g :: gs) s =
      encodeFrom obs channel start (i + 1) gs (afterGroup obs channel start i g s) := by
  have hensure : Encoding.write (Writer.ensure Layout.headroom) s = .ok () s :=
    Encoding.writing_of_ok _ (Writer.ensure_of_le hroom)
  have hor : Encoding.write (Writer.orAt (start + slot i) (g.select.1.slotBits i)) s = .ok () _ :=
    Encoding.writing_of_ok _ (Writer.orAt_of_lt hslot)
  have hfit : g.payload.length ≤ s.writer.remaining := by
    have hcost := g.cost_le
    unfold Layout.headroom at hroom
    rw [Group.payload_length]
    omega
  have happend (written : Array UInt8) : Encoding.write (Writer.append g.payload)
      { s with writer := ⟨written, s.writer.spare⟩ } = .ok () _ :=
    Encoding.writing_of_ok _ (Writer.append_of_le hfit)
  have hpack := g.pack?_select
  rw [encodeFrom, bind_of_ok hensure, afterGroup]
  rcases hselect : g.select with ⟨w, size⟩
  rw [hselect] at hor hpack
  refine (bind_of_ok hor).trans ?_
  dsimp only at hpack ⊢
  rw [hpack]
  exact (bind_of_ok (happend _)).trans rfl

theorem encodeFrom_cons_of_lt {gs : List Group} (hroom : s.writer.remaining < Layout.headroom) :
    encodeFrom obs channel start i (g :: gs) s =
      .error (.outputTooSmall Layout.headroom s.writer.remaining) s := by
  have hensure : Encoding.write (Writer.ensure Layout.headroom) s =
      .error (.outputTooSmall Layout.headroom s.writer.remaining) s :=
    Encoding.writing_of_error _ (Writer.ensure_of_lt hroom)
  rw [encodeFrom, bind_of_error hensure]

theorem modify_append_left {head : List UInt8} (back : List UInt8) (f : UInt8 → UInt8) {k : Nat}
    (hk : k < head.length) : (head ++ back).modify k f = head.modify k f ++ back := by
  have hk' : k < (head ++ back).length := by
    rw [List.length_append]
    omega
  rw [List.modify_eq_take_cons_drop hk, List.modify_eq_take_cons_drop hk',
    List.take_append_of_le_length (by omega), List.drop_append_of_le_length (by omega),
    List.getElem_append_left hk, List.append_assoc, List.cons_append]

theorem modify_append_right (front : List UInt8) (head : List UInt8) (f : UInt8 → UInt8) (k : Nat) :
    (front ++ head).modify (front.length + k) f = front ++ head.modify k f := by
  induction front with
  | nil => simp
  | cons b front ih =>
    rw [List.cons_append, List.length_cons, Nat.add_right_comm, List.modify_succ_cons, ih,
      List.cons_append]

/-- A header with places for `n` groups stands at `start`. -/
structure HeaderAt (s : Session σ) (start n : Nat) (front head back : List UInt8) : Prop where
  written_eq : s.writer.written.toList = front ++ head ++ back
  length_front : front.length = start
  places : n ≤ 4 * head.length

namespace HeaderAt
variable {n : Nat} {front head back : List UInt8}

theorem slot_lt (h : HeaderAt s start n front head back) (hi : i < n) : slot i < head.length := by
  have hplaces := h.places
  unfold slot
  omega

theorem position_lt (h : HeaderAt s start n front head back) (hi : i < n) :
    start + slot i < s.writer.position := by
  have hslot := h.slot_lt hi
  have hlen := congrArg List.length h.written_eq
  have hfront := h.length_front
  simp only [Array.length_toList, List.length_append] at hlen
  rw [Writer.position]
  omega

theorem afterGroup (h : HeaderAt s start n front head back) (hi : i < n) :
    HeaderAt (afterGroup obs channel start i g s) start n front
      (head.modify (slot i) (· ||| g.select.1.slotBits i)) (back ++ g.payload) where
  written_eq := by
    rw [Channel.afterGroup, Writer.written_push, Array.toList_modify, h.written_eq,
      ← h.length_front, List.append_assoc, modify_append_right,
      modify_append_left _ _ (h.slot_lt hi)]
    simp only [List.append_assoc]
  length_front := h.length_front
  places := by
    rw [List.length_modify]
    exact h.places

end HeaderAt

theorem remaining_afterGroup :
    (afterGroup obs channel start i g s).writer.remaining = s.writer.remaining - g.cost := by
  rw [afterGroup, Writer.remaining_push, Group.payload_length]
  rfl

variable {groups : List Group} {n : Nat} {front head back : List UInt8}

/-- What stands before the header stays, the header fills up, and the payloads line up
behind it. -/
theorem encodeFrom_of_le (obs : Observer σ) (channel : Nat)
    (h : HeaderAt s start n front head back) (hn : i + groups.length ≤ n)
    (hroom : room groups ≤ s.writer.remaining) :
    ∃ s', encodeFrom obs channel start i groups s = .ok () s' ∧
      s'.writer.written.toList = front ++ enter head i (groups.map (·.select.1)) ++
        (back ++ groups.flatMap Group.payload) ∧
      s'.writer.spare = s.writer.spare.drop (groups.flatMap Group.payload).length := by
  -- Each group moves what `HeaderAt` says of the session on by one place.
  induction groups generalizing i s head back with
  | nil => exact ⟨s, rfl, by simpa [enter] using h.written_eq, by simp⟩
  | cons g gs ih =>
    rw [room] at hroom
    rw [List.length_cons] at hn
    have hi : i < n := by omega
    have hremaining : room gs ≤ (afterGroup obs channel start i g s).writer.remaining := by
      rw [remaining_afterGroup]
      omega
    obtain ⟨s', hrun, hw, hspare⟩ := ih (i := i + 1) (h.afterGroup hi) (by omega) hremaining
    refine ⟨s', ?_, ?_, ?_⟩
    · rw [encodeFrom_cons_of_le (by omega) (h.position_lt hi), hrun]
    · rw [hw, List.map_cons, enter, List.flatMap_cons, List.append_assoc back]
    · rw [hspare, afterGroup, Writer.push, List.drop_drop, List.flatMap_cons, List.length_append]

theorem encodeFrom_of_lt (obs : Observer σ) (channel : Nat)
    (h : HeaderAt s start n front head back) (hn : i + groups.length ≤ n)
    (hroom : s.writer.remaining < room groups) :
    ∃ available s', encodeFrom obs channel start i groups s =
      .error (.outputTooSmall Layout.headroom available) s' ∧ available < Layout.headroom := by
  induction groups generalizing i s head back with
  | nil => exact absurd hroom (Nat.not_lt_zero _)
  | cons g gs ih =>
    by_cases hle : Layout.headroom ≤ s.writer.remaining
    · rw [room] at hroom
      rw [List.length_cons] at hn
      have hi : i < n := by omega
      -- No group is longer than the headroom, so room that is short stays short.
      have hcost := g.cost_le
      have hremaining : (afterGroup obs channel start i g s).writer.remaining < room gs := by
        rw [remaining_afterGroup]
        unfold Layout.headroom at hle hroom
        omega
      rw [encodeFrom_cons_of_le hle (h.position_lt hi)]
      exact ih (i := i + 1) (h.afterGroup hi) (by omega) hremaining
    · have hlt := Nat.lt_of_not_le hle
      exact ⟨_, _, encodeFrom_cons_of_lt hlt, hlt⟩

theorem headerAt_reserve (s : Session σ) (groups : List Group) :
    HeaderAt { s with writer := s.writer.push (List.replicate (headerSize groups.length) 0) }
      s.writer.position groups.length s.writer.written.toList
      (List.replicate (headerSize groups.length) 0) [] where
  written_eq := by rw [Writer.written_push, List.append_nil]
  length_front := Array.length_toList
  places := by
    rw [List.length_replicate, headerSize]
    omega

theorem encodeGroups_appends (obs : Observer σ) (channel : Nat) (groups : List Group) :
    Appends (headerSize groups.length + room groups) (bytes groups)
      (encodeGroups obs channel groups) where
  length_le := by
    have h := cost_sum_le_room groups
    rw [bytes_length]
    omega
  room_le := by
    have h := room_le groups
    rw [bytes_length]
    omega
  fits s hs := by
    have hreserve := Encoding.writing_of_ok .ofCursor
      (Writer.reserve_of_le (n := headerSize groups.length) (w := s.writer) (by omega))
    obtain ⟨s', hrun, hw, hspare⟩ := encodeFrom_of_le obs channel (i := 0)
      (headerAt_reserve s groups) (Nat.le_of_eq (Nat.zero_add _)) (by
        rw [Writer.remaining_push, List.length_replicate]
        omega)
    refine ⟨_, (bind_of_ok hreserve).trans ((bind_of_ok hrun).trans rfl), ?_⟩
    apply Writer.eq_push
    · rw [bytes, header, List.length_map, ← List.append_assoc]
      exact hw
    · rw [bytes, List.length_append, header_length, List.length_map, ← List.drop_drop]
      refine hspare.trans ?_
      rw [Writer.push, List.length_replicate]
  full s hs := by
    by_cases hheader : headerSize groups.length ≤ s.writer.remaining
    · have hreserve := Encoding.writing_of_ok .ofCursor
        (Writer.reserve_of_le (w := s.writer) hheader)
      obtain ⟨available, s', hrun, hlt⟩ := encodeFrom_of_lt obs channel
        (i := 0) (headerAt_reserve s groups) (Nat.le_of_eq (Nat.zero_add _)) (by
          rw [Writer.remaining_push, List.length_replicate]
          omega)
      exact ⟨_, available, s', (bind_of_ok hreserve).trans (bind_of_error hrun), hlt⟩
    · have hlt := Nat.lt_of_not_le hheader
      have hreserve := Encoding.writing_of_error .ofCursor (Writer.reserve_of_lt hlt)
      exact ⟨_, _, _, bind_of_error hreserve, hlt⟩

def columnBytes (p : UInt8) (column : List UInt8) : List UInt8 :=
  bytes (Group.split (Delta.encode p column))

theorem encode_appends (obs : Observer σ) (channel : Nat) (p : UInt8) (column : List UInt8) :
    ∃ r, Appends r (columnBytes p column) (encode obs channel p column) := by
  have hgroups := encodeGroups_appends obs channel (Group.split (Delta.encode p column))
  have hstop (first : Nat) : Appends 0 [] (Encoding.position >>= fun stop =>
      Encoding.report obs (.channel channel (stop - first))) :=
    Appends.look (Nat.le_refl 0) (Nat.zero_le _) (fun s => ⟨_, rfl⟩) fun _ => Appends.report _ _
  refine ⟨_, Appends.look hgroups.length_le hgroups.room_le (fun s => ⟨_, rfl⟩) fun first => ?_⟩
  refine Appends.look hgroups.length_le hgroups.room_le (fun s => ⟨_, rfl⟩) fun s => ?_
  have hrest := hgroups.bind_quiet (hstop first)
  dsimp only
  split
  · exact (Appends.reports obs _ _).quiet_bind hrest
  · exact hrest

end VertexPack.Channel
