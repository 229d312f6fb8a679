import VertexPack.Proofs.Accounting

/-! Accounts of streams that ran out of room. Between two channels all that was counted group by
group was also counted by positions; inside a channel only that one is behind. Whatever was
counted was written before. -/
namespace VertexPack
open Transcript

namespace Account

/-- The bytes of channel `k` that were counted group by group. -/
def counted (k : Nat) (es : List Event) : Nat := ((about k es).map Event.counted).sum

/-- The bytes of channel `k` that were counted by positions. -/
def sized (k : Nat) (es : List Event) : Nat := ((about k es).map Event.sized).sum

theorem counted_append (k : Nat) (es es' : List Event) :
    counted k (es ++ es') = counted k es + counted k es' := by
  rw [counted, about, List.filter_append, List.map_append, List.sum_append]
  rfl

theorem sized_append (k : Nat) (es es' : List Event) :
    sized k (es ++ es') = sized k es + sized k es' := by
  rw [sized, about, List.filter_append, List.map_append, List.sum_append]
  rfl

theorem sum_about_of_channel {k j : Nat} {es : List Event} (w : Event → Nat)
    (h : ∀ e ∈ es, e.channel? = some k) :
    ((about j es).map w).sum = if k = j then (es.map w).sum else 0 := by
  rw [about_of_channel h]
  split <;> rfl

end Account

open Account

theorem prefix_append_cases {α : Type} {l l' front : List α} (h : front <+: l ++ l') :
    front <+: l ∨ ∃ rest, front = l ++ rest ∧ rest <+: l' := by
  rcases List.prefix_or_prefix_of_prefix h (List.prefix_append l l') with h' | ⟨rest, rfl⟩
  · exact .inl h'
  · exact .inr ⟨rest, rfl, (List.prefix_append_right_inj l).1 h⟩

/-- A transcript that counts no byte group by group before it is written. -/
def Backed (ms : List Mark) : Prop :=
  ∀ front, front <+: ms → ((events front).map Event.counted).sum ≤ width front

namespace Backed
variable {ms ms' : List Mark}

theorem append (h : Backed ms) (h' : Backed ms') : Backed (ms ++ ms') := by
  intro front hfront
  rcases prefix_append_cases hfront with hfirst | ⟨rest, rfl, hrest⟩
  · exact h front hfirst
  · rw [events_append, List.map_append, List.sum_append, width_append]
    exact Nat.add_le_add (h ms List.prefix_rfl) (h' rest hrest)

theorem of_sum_eq_zero (h : ((events ms).map Event.counted).sum = 0) : Backed ms := by
  rintro front ⟨rest, rfl⟩
  rw [events_append, List.map_append, List.sum_append] at h
  rw [Nat.eq_zero_of_add_eq_zero_right h]
  exact Nat.zero_le _

theorem report {e : Event} (h : Backed ms)
    (he : ((events (ms ++ [.report e])).map Event.counted).sum ≤ width ms) :
    Backed (ms ++ [.report e]) := by
  intro front hfront
  rcases List.prefix_concat_iff.1 hfront with rfl | hfront
  · rw [width_append]
    exact Nat.le_trans he (Nat.le_add_right _ _)
  · exact h front hfront

theorem groupMarks (k : Nat) (groups : List Group) :
    Backed (groups.flatMap (Channel.groupMarks k)) := by
  induction groups with
  | nil => exact of_sum_eq_zero rfl
  | cons g gs ih =>
    have hbytes : Backed [.demand Layout.headroom, .advance g.cost] := of_sum_eq_zero rfl
    rw [List.flatMap_cons]
    exact (hbytes.report (Nat.le_of_eq (Nat.add_comm _ _))).append ih

end Backed

/-- So far the two counts differ in one channel at most, and what either counted was written. -/
def Pending (ms : List Mark) : Prop :=
  ∃ j bytes, (∀ k, counted k (events ms) = sized k (events ms) + if k = j then bytes else 0) ∧
    ((events ms).map Event.sized).sum + bytes ≤ width ms

/-- A transcript after which both counts agree, and before whose end one channel at most is
behind. -/
structure Accountable (ms : List Mark) : Prop where
  balanced : ∀ k, counted k (events ms) = sized k (events ms)
  pending : ∀ front, front <+: ms → Pending front

namespace Accountable
variable {ms ms' : List Mark}

theorem of_events_eq_nil (h : events ms = []) : Accountable ms := by
  refine ⟨fun k => by rw [h]; rfl, fun front hfront => ?_⟩
  have hnil : events front = [] := List.prefix_nil.1 (h ▸ events_isPrefix hfront)
  rw [Pending, hnil]
  exact ⟨0, 0, fun k => by rw [ite_self]; rfl, Nat.zero_le _⟩

theorem append (h : Accountable ms) (h' : Accountable ms') : Accountable (ms ++ ms') where
  balanced k := by
    rw [events_append, counted_append, sized_append, h.balanced, h'.balanced]
  pending front hfront := by
    rcases prefix_append_cases hfront with hfirst | ⟨rest, rfl, hrest⟩
    · exact h.pending front hfirst
    · obtain ⟨_, _, _, hms⟩ := h.pending ms List.prefix_rfl
      obtain ⟨j, bytes, hj, hrest⟩ := h'.pending rest hrest
      refine ⟨j, bytes, fun k => ?_, ?_⟩
      · rw [events_append, counted_append, sized_append, h.balanced, hj, Nat.add_assoc]
      · rw [events_append, List.map_append, List.sum_append, width_append]
        omega

theorem flatMap {ι : Type} {f : ι → List Mark} (h : ∀ i, Accountable (f i)) (l : List ι) :
    Accountable (l.flatMap f) := by
  induction l with
  | nil => exact of_events_eq_nil rfl
  | cons i l ih =>
    rw [List.flatMap_cons]
    exact (h i).append ih

/-- A channel that is counted by positions after its groups were counted. -/
theorem of_channel {front : List Mark} {k n : Nat} (hbacked : Backed front)
    (hchannel : ∀ e ∈ events front, e.channel? = some k)
    (hsized : ((events front).map Event.sized).sum = 0)
    (hcounted : ((events front).map Event.counted).sum = n) :
    Accountable (front ++ [.report (.channel k n)]) := by
  have hall : events (front ++ [.report (.channel k n)]) = events front ++ [.channel k n] :=
    events_append
  have hlast (e : Event) (he : e ∈ events front ++ [.channel k n]) : e.channel? = some k := by
    rcases List.mem_append.1 he with he | he
    · exact hchannel e he
    · rw [List.mem_singleton.1 he]
      rfl
  -- The last entry counts by positions what the entries before it have counted by groups.
  have hbalanced (j : Nat) : counted j (events (front ++ [.report (.channel k n)])) =
      sized j (events (front ++ [.report (.channel k n)])) := by
    rw [hall, counted, sized, sum_about_of_channel _ hlast, sum_about_of_channel _ hlast,
      List.map_append, List.map_append, List.sum_append, List.sum_append, hcounted, hsized]
    change (if k = j then n + 0 else 0) = if k = j then 0 + (n + 0) else 0
    rw [Nat.zero_add]
  refine ⟨hbalanced, fun first hfirst => ?_⟩
  rcases List.prefix_concat_iff.1 hfirst with rfl | hfirst
  · refine ⟨0, 0, fun j => by rw [hbalanced j, ite_self, Nat.add_zero], ?_⟩
    have hwidth := hbacked front List.prefix_rfl
    rw [hcounted] at hwidth
    rw [hall, List.map_append, List.sum_append, hsized, width_append]
    change 0 + (n + 0) + 0 ≤ width front + 0
    omega
  · -- Before the last entry nothing was counted by positions.
    have hzero : ((events first).map Event.sized).sum = 0 := by
      obtain ⟨rest, rfl⟩ := hfirst
      rw [events_append, List.map_append, List.sum_append] at hsized
      exact Nat.eq_zero_of_add_eq_zero_right hsized
    have hfirstchannel (e : Event) (he : e ∈ events first) : e.channel? = some k :=
      hchannel e ((events_isPrefix hfirst).subset he)
    refine ⟨k, ((events first).map Event.counted).sum, fun j => ?_, ?_⟩
    · rw [counted, sized, sum_about_of_channel _ hfirstchannel,
        sum_about_of_channel _ hfirstchannel, hzero, ite_self, Nat.zero_add]
      simp only [eq_comm]
    · rw [hzero, Nat.zero_add]
      exact hbacked first hfirst

theorem channelMarks (k : Nat) (p : UInt8) (column : List UInt8) :
    Accountable (Channel.marks k p column) := by
  have hmarks := Entry.events_marks k p column
  obtain ⟨hcounted, hsized⟩ := Entry.sum_balance k (Entry.ofColumn p column)
  have hchannel (e : Event) (he : e ∈ events (Channel.marks k p column)) : e.channel? = some k :=
    Entry.channel_of_mem (hmarks ▸ he)
  rw [← hmarks, Entry.bytes_ofColumn] at hcounted hsized
  rw [Channel.marks, ← List.cons_append] at hchannel hcounted hsized ⊢
  rw [events_append, List.map_append, List.sum_append] at hcounted hsized
  have hwidth := Channel.width_groupsMarks k (Group.split (Delta.encode p column))
  refine of_channel ?_ (fun e he => hchannel e ?_) (Nat.add_eq_right.1 hsized) hcounted
  · rw [Channel.groupsMarks, ← List.cons_append] at hcounted hwidth ⊢
    rw [width_append] at hwidth
    rw [← List.cons_append] at hcounted ⊢
    have hfirst (n : Nat) :
        Backed [.offer (Channel.consistencyEvents k p column), .advance n] := by
      refine Backed.of_sum_eq_zero ?_
      simp [Mark.events, events, Channel.consistencyEvents, Event.counted, Function.comp_def]
    refine ((hfirst _).append (Backed.groupMarks k _)).report ?_
    exact Nat.le_of_eq (hcounted.trans (hwidth.symm.trans (Nat.zero_add _).symm))
  · rw [events_append]
    exact List.mem_append_left _ he

theorem blockMarks {size : Nat} (p : Record size) (records : List (Record size)) :
    Accountable (Block.marks p records) :=
  flatMap (fun k : Fin size => channelMarks k (p.get k) (Record.column k records)) _

theorem blocksMarks {size : Nat} (p : Record size) (blocks : List (List (Record size))) :
    Accountable (DeltaStream.blocksMarks p blocks) := by
  induction blocks generalizing p with
  | nil => exact of_events_eq_nil rfl
  | cons b bs ih => exact (blockMarks p b).append (ih _)

theorem jobMarks (job : DeltaStream.Job) : Accountable job.marks := by
  have hformat : Accountable [.demand (1 + job.size.val), .advance 1] := of_events_eq_nil rfl
  exact hformat.append ((blocksMarks job.first job.blocks).append (of_events_eq_nil rfl))

end Accountable
end VertexPack
