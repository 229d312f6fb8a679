import VertexPack.Proofs.ChannelBytes
import Mathlib.Algebra.BigOperators.Fin

/-! How writing a sequence of groups ends. What can be refused is the selector header, and the
headroom in front of a group; the headroom in front of the last group is the most that is asked
for, and behind a check that passed nothing is refused. -/
namespace VertexPack

theorem Width.and_three_of_ofCode {b : UInt8} {w : Width} (h : ofCode b = w) :
    b &&& 3 = w.code.toUInt8 := by
  have hcode : ∀ i : Fin 256, UInt8.ofNat i &&& 3 = (ofCode (UInt8.ofNat i)).code.toUInt8 := by
    decide +kernel
  rw [← h]
  simpa using hcode ⟨b.toNat, b.toNat_lt⟩

namespace Channel
open Width
variable {σ : Type} {obs : Observer σ} {channel start i r : Nat} {groups more : List Group}
  {s s' t : Session σ}

def bytesBefore (groups : List Group) (i : Nat) : Nat :=
  headerSize groups.length + ((groups.take i).map (·.select.2)).sum

theorem bytesBefore_eq (groups : List Group) (i : Nat) :
    bytesBefore groups i = headerSize groups.length + ((groups.take i).map Group.cost).sum := by
  simp only [bytesBefore, Group.select_snd]

theorem bytesBefore_succ (hi : i < groups.length) :
    bytesBefore groups (i + 1) = bytesBefore groups i + groups[i].cost := by
  rw [bytesBefore_eq, bytesBefore_eq, List.take_succ_eq_append_getElem hi, List.map_append,
    List.sum_append, Nat.add_assoc]
  rfl

theorem bytesBefore_mono {j : Nat} (h : i ≤ j) (hj : j ≤ groups.length) :
    bytesBefore groups i ≤ bytesBefore groups j := by
  induction j, h using Nat.le_induction with
  | base => exact Nat.le_refl _
  | succ j _ ih =>
    rw [bytesBefore_succ hj]
    exact Nat.le_trans (ih (Nat.le_of_succ_le hj)) (Nat.le_add_right _ _)

/-- The room behind the header is enough if there is headroom in front of every group. -/
theorem room_le_iff :
    room groups ≤ r ↔
      ∀ i < groups.length, ((groups.take i).map Group.cost).sum + Layout.headroom ≤ r := by
  induction groups generalizing r with
  | nil => simp [room]
  | cons g gs ih =>
    have hcost := g.cost_le
    have hstep : room (g :: gs) ≤ r ↔ Layout.headroom ≤ r ∧ room gs ≤ r - g.cost := by
      rw [room]
      unfold Layout.headroom
      omega
    rw [hstep, ih]
    constructor
    · rintro ⟨hfirst, hrest⟩ i hi
      cases i with
      | zero => simpa using hfirst
      | succ i =>
        have hnext := hrest i (Nat.lt_of_succ_lt_succ hi)
        unfold Layout.headroom at hfirst hnext ⊢
        rw [List.take_succ_cons, List.map_cons, List.sum_cons]
        omega
    · intro hall
      refine ⟨by simpa using hall 0 (Nat.succ_pos _), fun i hi => ?_⟩
      have hnext := hall (i + 1) (Nat.succ_lt_succ hi)
      rw [List.take_succ_cons, List.map_cons, List.sum_cons] at hnext
      omega

theorem headerSize_add_room_le_iff :
    headerSize groups.length + room groups ≤ r ↔
      groups = [] ∨ headerSize groups.length + (groups.dropLast.map (·.select.2)).sum +
        Layout.headroom ≤ r := by
  have hlast : headerSize groups.length + (groups.dropLast.map (·.select.2)).sum =
      bytesBefore groups (groups.length - 1) := by
    rw [bytesBefore, List.dropLast_eq_take]
  rw [hlast]
  by_cases hne : groups = []
  · subst hne
    simp [room, headerSize]
  · have hpos := List.length_pos_iff.2 hne
    have hheader : headerSize groups.length ≤ bytesBefore groups (groups.length - 1) :=
      Nat.le_add_right _ _
    -- Groups line up, so the last demand for headroom covers those before it.
    constructor
    · intro hroom
      have hall := room_le_iff.1 (Nat.le_sub_of_add_le' hroom) (groups.length - 1) (by omega)
      right
      rw [bytesBefore_eq]
      omega
    · intro hlast
      have hlast := hlast.resolve_left hne
      have hle : room groups ≤ r - headerSize groups.length := by
        refine room_le_iff.2 fun i hi => ?_
        have hmono : bytesBefore groups i ≤ bytesBefore groups (groups.length - 1) :=
          bytesBefore_mono (Nat.le_sub_one_of_lt hi) (Nat.sub_le _ _)
        rw [bytesBefore_eq] at hmono
        omega
      omega

theorem room_take_le (h : ∀ j < i, ((groups.take j).map Group.cost).sum + Layout.headroom ≤ r) :
    room (groups.take i) ≤ r := by
  refine room_le_iff.2 fun j hj => ?_
  have hlt : j < i := Nat.lt_of_lt_of_le hj (List.length_take_le i groups)
  rw [List.take_take, Nat.min_eq_left (Nat.le_of_lt hlt)]
  exact h j hlt

theorem encodeFrom_append (obs : Observer σ) (channel start i : Nat) (groups more : List Group) :
    encodeFrom obs channel start i (groups ++ more) =
      encodeFrom obs channel start i groups >>= fun _ =>
        encodeFrom obs channel start (i + groups.length) more := by
  induction groups generalizing i with
  | nil => rfl
  | cons g gs ih =>
    have hnext : i + 1 + gs.length = i + (gs.length + 1) := by omega
    rw [List.cons_append, encodeFrom, encodeFrom, List.length_cons]
    simp only [bind_assoc, ih, hnext]
    rcases g.pack? g.select.1 with - | bs <;> simp only [bind_assoc]

def encodeLeading (obs : Observer σ) (channel i : Nat) (groups : List Group) : Encoding σ Nat := do
  let start ← Encoding.write (Writer.reserve (headerSize groups.length))
  encodeFrom obs channel start 0 (groups.take i)
  pure start

theorem payloads_length (groups : List Group) :
    (groups.flatMap Group.payload).length = (groups.map Group.cost).sum := by
  rw [List.length_flatMap]
  simp only [Group.payload_length]

theorem encodeLeading_of_le (obs : Observer σ) (channel : Nat)
    (hheader : headerSize groups.length ≤ s.writer.remaining)
    (hroom : room (groups.take i) ≤ s.writer.remaining - headerSize groups.length) :
    ∃ t head back, encodeLeading obs channel i groups s = .ok s.writer.position t ∧
      HeaderAt t s.writer.position groups.length s.writer.written.toList head back ∧
      t.writer.remaining + bytesBefore groups i = s.writer.remaining := by
  have hreserve := Encoding.writing_of_ok .ofCursor (Writer.reserve_of_le hheader)
  have htake : 0 + (groups.take i).length ≤ groups.length := by
    rw [Nat.zero_add]
    exact List.length_take_le' i groups
  obtain ⟨t, hrun, hw, hspare⟩ := encodeFrom_of_le obs channel (headerAt_reserve s groups) htake
    (by rwa [Writer.remaining_push, List.length_replicate])
  have hcost := cost_sum_le_room (groups.take i)
  refine ⟨t, _, _, (bind_of_ok hreserve).trans ((bind_of_ok hrun).trans rfl), ⟨hw, ?_, ?_⟩, ?_⟩
  · exact (headerAt_reserve s groups).length_front
  · rw [enter_length]
    exact (headerAt_reserve s groups).places
  · have hremaining := congrArg List.length hspare
    rw [List.length_drop, payloads_length] at hremaining
    change t.writer.remaining = (Writer.remaining _) - _ at hremaining
    rw [Writer.remaining_push, List.length_replicate] at hremaining
    rw [bytesBefore_eq]
    omega

theorem of_encodeLeading_eq_ok (h : encodeLeading obs channel i groups s = .ok start t) :
    start = s.writer.position ∧ (∃ head back, HeaderAt t s.writer.position groups.length
      s.writer.written.toList head back) ∧
      t.writer.remaining + bytesBefore groups i = s.writer.remaining := by
  by_cases hheader : headerSize groups.length ≤ s.writer.remaining
  · by_cases hroom : room (groups.take i) ≤ s.writer.remaining - headerSize groups.length
    · obtain ⟨t', head, back, hrun, hat, hremaining⟩ :=
        encodeLeading_of_le obs channel hheader hroom
      rw [hrun] at h
      cases h
      exact ⟨rfl, ⟨head, back, hat⟩, hremaining⟩
    · have hreserve := Encoding.writing_of_ok .ofCursor (Writer.reserve_of_le hheader)
      have htake : 0 + (groups.take i).length ≤ groups.length := by
        rw [Nat.zero_add]
        exact List.length_take_le' i groups
      obtain ⟨available, s', hrun, hlt⟩ :=
        encodeFrom_of_lt obs channel (headerAt_reserve s groups) htake
          (by rw [Writer.remaining_push, List.length_replicate]; exact Nat.lt_of_not_le hroom)
      cases h.symm.trans ((bind_of_ok hreserve).trans (bind_of_error hrun))
  · have hreserve := Encoding.writing_of_error .ofCursor
      (Writer.reserve_of_lt (Nat.lt_of_not_le hheader))
    cases h.symm.trans (bind_of_error hreserve)

theorem encodeGroups_of_encodeLeading (hi : i ≤ groups.length)
    (h : encodeLeading obs channel i groups s = .ok start t) :
    encodeGroups obs channel groups s = (do
      encodeFrom obs channel start i (groups.drop i)
      Encoding.report obs (.header channel (headerSize groups.length))) t := by
  obtain ⟨start', s₁, hreserve, hrest⟩ := bind_eq_ok_iff.1 h
  obtain ⟨_, s₂, hrun, hpure⟩ := bind_eq_ok_iff.1 hrest
  cases hpure
  have hsplit := encodeFrom_append obs channel start 0 (groups.take i) (groups.drop i)
  rw [List.take_append_drop, List.length_take_of_le hi, Nat.zero_add] at hsplit
  have hall := bind_of_ok (f := fun start => encodeFrom obs channel start 0 groups >>= fun _ =>
    Encoding.report obs (.header channel (headerSize groups.length))) hreserve
  rw [encodeGroups, hall, hsplit, bind_assoc, bind_of_ok hrun]

/-- Behind the check for headroom, neither the entry in the header nor the payload is refused. -/
theorem encodeLeading_lets_through (hi : i < groups.length)
    (h : encodeLeading obs channel i groups s = .ok start t)
    (hroom : Layout.headroom ≤ t.writer.remaining) :
    ∃ t₁ t₂, Encoding.write (Writer.orAt (start + slot i) (groups[i].select.1.slotBits i)) t =
        .ok () t₁ ∧ groups[i].pack? groups[i].select.1 = some groups[i].payload ∧
      Encoding.write (Writer.append groups[i].payload) t₁ = .ok () t₂ := by
  obtain ⟨rfl, ⟨head, back, hat⟩, _⟩ := of_encodeLeading_eq_ok h
  have hpatch : Writer.orAt (s.writer.position + slot i) (groups[i].select.1.slotBits i) t.writer =
      .ok () _ := Writer.orAt_of_lt (hat.position_lt hi)
  have hcost := groups[i].cost_le
  refine ⟨_, _, Encoding.writing_of_ok .ofCursor hpatch, groups[i].pack?_select,
    Encoding.writing_of_ok .ofCursor (Writer.append_of_le ?_)⟩
  unfold Layout.headroom at hroom
  rw [Group.payload_length]
  change _ ≤ t.writer.remaining
  omega

/-- Why groups are refused with room for `r` bytes, and the room that is then left: the selector
header does not fit, or there is no headroom in front of a group. -/
inductive Refused (groups : List Group) (r : Nat) : StreamError → Nat → Prop
  | header (h : r < headerSize groups.length) :
    Refused groups r (.outputTooSmall (headerSize groups.length) r) r
  | headroom {i available : Nat} (hi : i < groups.length)
    (hroom : available + bytesBefore groups i = r) (hlt : available < Layout.headroom)
    (hbefore : ∀ j < i, bytesBefore groups j + Layout.headroom ≤ r) :
    Refused groups r (.outputTooSmall Layout.headroom available) available

theorem encodeGroups_of_lt (obs : Observer σ) (channel : Nat)
    (h : s.writer.remaining < headerSize groups.length + room groups) :
    ∃ e s', encodeGroups obs channel groups s = .error e s' ∧
      Refused groups s.writer.remaining e s'.writer.remaining := by
  by_cases hheader : headerSize groups.length ≤ s.writer.remaining
  · have hfail : ∃ i, i < groups.length ∧ s.writer.remaining - headerSize groups.length <
        ((groups.take i).map Group.cost).sum + Layout.headroom := by
      by_contra hnone
      simp only [not_exists, not_and, Nat.not_lt] at hnone
      have hroom := room_le_iff.2 hnone
      omega
    -- The first check that fails is the one that is reached.
    obtain ⟨hi, hlt⟩ := Nat.find_spec hfail
    have hbefore (j : Nat) (hj : j < Nat.find hfail) :
        ((groups.take j).map Group.cost).sum + Layout.headroom ≤
          s.writer.remaining - headerSize groups.length := by
      have hmin := Nat.find_min hfail hj
      omega
    obtain ⟨t, head, back, hrun, hat, hremaining⟩ :=
      encodeLeading_of_le obs channel hheader (room_take_le hbefore)
    have hfull : t.writer.remaining < Layout.headroom := by
      rw [bytesBefore_eq] at hremaining
      omega
    have hstop : encodeFrom obs channel s.writer.position (Nat.find hfail)
        (groups[Nat.find hfail] :: groups.drop (Nat.find hfail + 1)) t = .error _ t :=
      encodeFrom_cons_of_lt hfull
    rw [← List.drop_eq_getElem_cons hi] at hstop
    refine ⟨_, t, (encodeGroups_of_encodeLeading (Nat.le_of_lt hi) hrun).trans
      (bind_of_error hstop), .headroom hi hremaining hfull fun j hj => ?_⟩
    have hpassed := hbefore j hj
    unfold Layout.headroom at hpassed ⊢
    rw [bytesBefore_eq]
    omega
  · have hlt := Nat.lt_of_not_le hheader
    have hreserve := Encoding.writing_of_error .ofCursor (Writer.reserve_of_lt hlt)
    exact ⟨_, _, bind_of_error hreserve, .header hlt⟩

/-- What writing groups leaves behind: their selector header and their payloads stand behind the
old position, and everything in front of it and behind the new one is as it was. -/
structure Stored (groups : List Group) (before after : Writer) (head : List UInt8)
    (payloads : List (List UInt8)) : Prop where
  header_length : head.length = headerSize groups.length
  selectors : ∀ i < 4 * headerSize groups.length, head.getD (slot i) 0 >>> shift i &&& 3 =
    ((groups.map fun g : Group => g.select.1.code).getD i 0).toUInt8
  packed : List.Forall₂ (fun g bs => g.pack? g.select.1 = some bs ∧ bs.length = g.select.2)
    groups payloads
  position_eq : after.position =
    before.position + (headerSize groups.length + (groups.map (·.select.2)).sum)
  destination_eq : after.destination = before.destination.take before.position ++
    (head ++ payloads.flatten) ++ before.destination.drop after.position

theorem stored_push (groups : List Group) (w : Writer) :
    Stored groups w (w.push (bytes groups)) (header (groups.map (·.select.1)))
      (groups.map Group.payload) where
  header_length := by rw [Width.header_length, List.length_map]
  selectors i _ := by
    have hname := and_three_of_ofCode (named_header (groups.map (·.select.1)) i)
    rw [hname]
    by_cases hi : i < groups.length
    · simp [hi]
    · simp [hi, Width.code]
  packed := by
    rw [List.forall₂_map_right_iff, List.forall₂_same]
    intro g _
    exact ⟨g.pack?_select, by rw [Group.payload_length, Group.select_snd]⟩
  position_eq := by
    rw [Writer.position_push, bytes_length]
    simp only [Group.select_snd]
  destination_eq := by
    have hfront : w.destination.take w.position = w.written.toList := by
      rw [Writer.destination, Writer.position, ← Array.length_toList, List.take_left]
    have hback : w.destination.drop (w.position + (bytes groups).length) =
        w.spare.drop (bytes groups).length := by
      rw [Writer.destination, Writer.position, ← Array.length_toList, List.drop_append]
      simp
    rw [Writer.destination_push, hfront, Writer.position_push, hback, bytes, List.flatMap_def]

theorem encodeGroups_cases (obs : Observer σ) (channel : Nat) (groups : List Group)
    (s : Session σ) :
    (headerSize groups.length + room groups ≤ s.writer.remaining ∧
      ∃ s', encodeGroups obs channel groups s = .ok () s' ∧
        s'.writer = s.writer.push (bytes groups)) ∨
    ∃ e s', encodeGroups obs channel groups s = .error e s' ∧
      Refused groups s.writer.remaining e s'.writer.remaining := by
  by_cases hroom : headerSize groups.length + room groups ≤ s.writer.remaining
  · exact .inl ⟨hroom, (encodeGroups_appends obs channel groups).fits s hroom⟩
  · exact .inr (encodeGroups_of_lt obs channel (Nat.lt_of_not_le hroom))

/-- Writing groups succeeds exactly if there are none, or if behind the selector header and all
groups but the last there is headroom. It is refused for want of room only, at the selector header
or in front of a group; no entry in the header and no payload is refused. When it succeeds it has
stored the groups. -/
theorem encodeGroups_ending (obs : Observer σ) (channel : Nat) (groups : List Group)
    (s : Session σ) :
    ((∃ s', encodeGroups obs channel groups s = .ok () s') ↔
      groups = [] ∨ headerSize groups.length + (groups.dropLast.map (·.select.2)).sum +
        Layout.headroom ≤ s.writer.remaining) ∧
    (∀ e s', encodeGroups obs channel groups s = .error e s' →
      Refused groups s.writer.remaining e s'.writer.remaining) ∧
    (∀ s', encodeGroups obs channel groups s = .ok () s' →
      ∃ head payloads, Stored groups s.writer s'.writer head payloads) ∧
    ∀ (i : Nat) (hi : i < groups.length) (start : Nat) (t : Session σ),
      encodeLeading obs channel i groups s = .ok start t →
      encodeGroups obs channel groups s = (do
        encodeFrom obs channel start i (groups.drop i)
        Encoding.report obs (.header channel (headerSize groups.length))) t ∧
      (Layout.headroom ≤ t.writer.remaining → ∃ bs t₁ t₂,
        groups[i].pack? groups[i].select.1 = some bs ∧
        Encoding.write (Writer.orAt (start + slot i) (groups[i].select.1.slotBits i)) t =
          .ok () t₁ ∧
        Encoding.write (Writer.append bs) t₁ = .ok () t₂) := by
  rw [← headerSize_add_room_le_iff]
  refine ⟨⟨?_, ?_⟩, ?_, ?_, fun i hi start t ht => ?_⟩
  · rintro ⟨s', hs'⟩
    obtain ⟨hroom, -⟩ | ⟨e, t, ht, -⟩ := encodeGroups_cases obs channel groups s
    · exact hroom
    · cases hs'.symm.trans ht
  · intro hroom
    obtain ⟨s', hs', -⟩ := (encodeGroups_appends obs channel groups).fits s hroom
    exact ⟨s', hs'⟩
  · intro e s' hs'
    obtain ⟨-, t, ht, -⟩ | ⟨_, t, ht, hrefused⟩ := encodeGroups_cases obs channel groups s
    · cases hs'.symm.trans ht
    · cases hs'.symm.trans ht
      exact hrefused
  · intro s' hs'
    obtain ⟨-, t, ht, hw⟩ | ⟨_, t, ht, -⟩ := encodeGroups_cases obs channel groups s
    · cases hs'.symm.trans ht
      exact ⟨_, _, hw ▸ stored_push groups s.writer⟩
    · cases hs'.symm.trans ht
  · refine ⟨encodeGroups_of_encodeLeading (Nat.le_of_lt hi) ht, fun hroom => ?_⟩
    obtain ⟨t₁, t₂, hor, hpack, happend⟩ := encodeLeading_lets_through hi ht hroom
    exact ⟨_, t₁, t₂, hpack, hor, happend⟩

theorem encodeGroups_ending_two_groups :
    (∃ s', encodeGroups Observer.silent 0 [Vector.replicate 16 1, Vector.replicate 16 128]
        (.start (List.replicate 29 7) ()) = .ok () s' ∧ s'.writer.position = 21) ∧
    ∃ s', encodeGroups Observer.silent 0 [Vector.replicate 16 1, Vector.replicate 16 128]
        (.start (List.replicate 28 7) ()) = .error (.outputTooSmall 24 23) s' := by
  obtain ⟨hok, -, hstored, -⟩ := encodeGroups_ending Observer.silent 0
    [Vector.replicate 16 1, Vector.replicate 16 128] (.start (List.replicate 29 7) ())
  obtain ⟨hok', herror, -⟩ := encodeGroups_ending Observer.silent 0
    [Vector.replicate 16 1, Vector.replicate 16 128] (.start (List.replicate 28 7) ())
  obtain ⟨s', hs'⟩ := hok.2 (.inr (by decide))
  obtain ⟨head, payloads, hat⟩ := hstored s' hs'
  refine ⟨⟨s', hs', hat.position_eq.trans (by decide)⟩, ?_⟩
  cases hrun : encodeGroups Observer.silent 0 [Vector.replicate 16 1, Vector.replicate 16 128]
    (.start (List.replicate 28 7) ()) with
  | ok _ s => exact absurd (hok'.1 ⟨s, hrun⟩) (by decide)
  | error e s =>
    have hrefused := herror e s hrun
    generalize s.writer.remaining = left at hrefused
    cases hrefused with
    | header h => exact absurd h (by decide)
    | @headroom i _ hi hroom hlt hbefore =>
      have hi : i = 0 ∨ i = 1 := by
        have hlen : i < 2 := hi
        omega
      rcases hi with rfl | rfl
      · have hfirst : left + 1 = 28 := hroom
        unfold Layout.headroom at hlt
        omega
      · have hsecond : left + 5 = 28 := hroom
        obtain rfl : left = 23 := by omega
        exact ⟨s, rfl⟩

end Channel
end VertexPack
