import VertexPack.Proofs.StreamBytes
import VertexPack.Proofs.Transcript

/-! The transcript of a delta stream: channel by channel of every block the bits that its values
share, then its selector header and its groups, then its size. -/
namespace VertexPack
open Transcript

namespace Channel

def groupMarks (channel : Nat) (g : Group) : List Mark :=
  [.demand Layout.headroom, .advance g.cost, .report (.group channel g.select.1 g.cost)]

def groupsMarks (channel : Nat) (groups : List Group) : List Mark :=
  .advance (Width.headerSize groups.length) :: (groups.flatMap (groupMarks channel) ++
    [.report (.header channel (Width.headerSize groups.length))])

def consistencyEvents (channel : Nat) (p : UInt8) (column : List UInt8) : List Event :=
  (consistency p (chunks Layout.groupSize column)).map fun run =>
    .consistency channel run.1 run.2

def marks (channel : Nat) (p : UInt8) (column : List UInt8) : List Mark :=
  .offer (consistencyEvents channel p column) ::
    (groupsMarks channel (Group.split (Delta.encode p column)) ++
      [.report (.channel channel (columnBytes p column).length)])

@[simp] theorem width_group (channel : Nat) (g : Group) : width (groupMarks channel g) = g.cost :=
  Nat.zero_add g.cost

theorem width_groupMarks (channel : Nat) (groups : List Group) :
    width (groups.flatMap (groupMarks channel)) = (groups.map Group.cost).sum := by
  induction groups with
  | nil => rfl
  | cons g gs ih =>
    rw [List.flatMap_cons, width_append, width_group, ih, List.map_cons, List.sum_cons]

theorem width_groupsMarks (channel : Nat) (groups : List Group) :
    width (groupsMarks channel groups) = (bytes groups).length := by
  rw [groupsMarks, width_cons, width_append, width_groupMarks, bytes_length]
  rfl

variable {σ : Type} {obs : Observer σ} {s : Session σ} {channel start n i : Nat}
  {front head back : List UInt8}

theorem encodeFrom_follows (groups : List Group) (h : HeaderAt s start n front head back)
    (hn : i + groups.length ≤ n) :
    FollowsAt obs s (groups.flatMap (groupMarks channel))
      (encodeFrom obs channel start i groups) := by
  induction groups generalizing i s head back with
  | nil => exact Follows.pure s
  | cons g gs ih =>
    rw [List.length_cons] at hn
    have hi : i < n := by omega
    rw [List.flatMap_cons]
    -- Where the headroom is free the group fits, so its own demand is never the one refused.
    by_cases hle : Layout.headroom ≤ s.writer.remaining
    · have hcost := g.cost_le
      have hfit : g.cost ≤ s.writer.remaining := by
        unfold Layout.headroom at hle
        omega
      refine FollowsAt.step_of_ok ?_ (encodeFrom_cons_of_le hle (h.position_lt hi)) ?_ ?_ ?_
        (ih (h.afterGroup hi) (by omega))
      · simp [refusal, groupMarks, Mark.need, Mark.width, hle, hfit]
      · rw [remaining_afterGroup, width_group]
        exact Nat.sub_add_cancel hfit
      · rw [afterGroup, Writer.position_push, Group.payload_length, width_group, Writer.position,
          Array.size_modify, Writer.position]
      · rw [afterGroup, Group.select_snd]
        rfl
    · have hlt := Nat.lt_of_not_le hle
      exact FollowsAt.of_lt (m := .demand Layout.headroom) hlt (encodeFrom_cons_of_lt hlt) rfl

theorem encodeGroups_follows (obs : Observer σ) (channel : Nat) (groups : List Group) :
    Follows obs (groupsMarks channel groups) (encodeGroups obs channel groups) := by
  intro s
  by_cases hle : Width.headerSize groups.length ≤ s.writer.remaining
  · have hreserve := Encoding.writing_of_ok .ofCursor (Writer.reserve_of_le hle)
    have hfits : refusal s.writer.remaining [.advance (Width.headerSize groups.length)] = none :=
      if_pos hle
    refine FollowsAt.step_of_ok hfits (bind_of_ok hreserve) ?_ ?_ rfl ?_
    · rw [Writer.remaining_push, List.length_replicate]
      exact Nat.sub_add_cancel hle
    · rw [Writer.position_push, List.length_replicate]
      rfl
    · exact (encodeFrom_follows groups (headerAt_reserve s groups)
        (Nat.le_of_eq (Nat.zero_add _))).bind fun s' _ _ => Follows.report _ s'
  · have hlt := Nat.lt_of_not_le hle
    have hreserve := Encoding.writing_of_error .ofCursor (Writer.reserve_of_lt hlt)
    exact FollowsAt.of_lt (m := .advance (Width.headerSize groups.length)) hlt
      (bind_of_error hreserve) rfl

theorem reports_run {ι : Type} (obs : Observer σ) (event : ι → Event) (l : List ι)
    (s : Session σ) :
    (l.forM fun i => Encoding.report obs (event i)) s =
      .ok () { s with observed := (l.map event).foldl obs.record s.observed } := by
  induction l generalizing s with
  | nil => rfl
  | cons i l ih => exact ih { s with observed := obs.record s.observed (event i) }

def afterOffer (obs : Observer σ) (events : List Event) (s : Session σ) : Session σ :=
  { s with observed := (Mark.offer events).hear obs s.observed }

theorem encode_run (obs : Observer σ) (channel : Nat) (p : UInt8) (column : List UInt8)
    (s : Session σ) :
    encode obs channel p column s = (do
      encodeGroups obs channel (Group.split (Delta.encode p column))
      let stop ← Encoding.position
      Encoding.report obs (.channel channel (stop - s.writer.position)))
        (afterOffer obs (consistencyEvents channel p column) s) := by
  change (if obs.isEnabled s.observed = true then _ else _ : Encoding σ Unit) s = _
  rw [afterOffer, Mark.hear]
  by_cases hwanted : obs.isEnabled s.observed = true
  · rw [if_pos hwanted, if_pos hwanted]
    exact bind_of_ok (reports_run obs _ _ s)
  · rw [if_neg hwanted, if_neg hwanted]

theorem encode_follows (obs : Observer σ) (channel : Nat) (p : UInt8) (column : List UInt8) :
    Follows obs (marks channel p column) (encode obs channel p column) := by
  intro s
  have hgroups := encodeGroups_follows obs channel (Group.split (Delta.encode p column))
    (afterOffer obs (consistencyEvents channel p column) s)
  have hoffer : refusal s.writer.remaining [.offer (consistencyEvents channel p column)] = none :=
    if_pos (Nat.zero_le _)
  refine FollowsAt.step_of_ok hoffer (encode_run obs channel p column s) rfl rfl rfl
    (hgroups.bind fun s' _ hposition => ?_)
  rw [width_groupsMarks] at hposition
  refine (Follows.report _ s').congr ?_
  change Encoding.report obs (.channel channel (s'.writer.position - s.writer.position)) s' = _
  rw [hposition, columnBytes]
  change Encoding.report obs (.channel channel (s.writer.position + _ - _)) s' = _
  rw [Nat.add_sub_cancel_left]

end Channel

def Block.marks {size : Nat} (p : Record size) (records : List (Record size)) : List Mark :=
  (List.finRange size).flatMap fun k : Fin size =>
    Channel.marks k (p.get k) (Record.column k records)

namespace DeltaStream
variable {σ : Type} {size : Nat}

def blocksMarks : Record size → List (List (Record size)) → List Mark
  | _, [] => []
  | p, b :: bs => Block.marks p b ++ blocksMarks (b.getLastD p) bs

/-- The transcript of a stream, up to the end of its tail. -/
def Job.marks (job : Job) : List Mark :=
  .demand (1 + job.size.val) :: .advance 1 :: (blocksMarks job.first job.blocks ++
    [.advance (tailBytes job.first.toList).length])

theorem Block.encode_follows (obs : Observer σ) (p : Record size) (records : List (Record size)) :
    Follows obs (Block.marks p records) (Block.encode obs p records) :=
  Follows.forM (fun k : Fin size =>
    Channel.encode_follows obs k (p.get k) (Record.column k records)) _

theorem encodeBlocks_follows (obs : Observer σ) (i : Nat) (p : Record size)
    (blocks : List (List (Record size))) :
    Follows obs (blocksMarks p blocks) (encodeBlocks obs i p blocks) := by
  induction blocks generalizing i p with
  | nil => exact Follows.pure
  | cons b bs ih =>
    have hblock := ((Block.encode_follows obs p b).noting (.blockFailed i)).bind
      (ih (i + 1) (b.getLastD p))
    intro s
    refine FollowsAt.congr ?_
      ((Follows.note (.blockStarted i b.length s.writer.position)).bind hblock s)
    rfl

theorem Job.write_follows (job : Job) (obs : Observer σ) :
    Follows obs job.marks (job.write obs) := by
  have htail : Follows obs [.advance (tailBytes job.first.toList).length]
      (Encoding.writing .ofFrame (Layout.writeTail job.first.toList)) :=
    Follows.writing (fun _ => writeTail_of_le _) fun _ => writeTail_of_lt _
  have hformat : Follows obs [.advance 1] (Encoding.writing .ofFrame job.format.write) :=
    Follows.writing (fun _ => formatByte_write_of_le _) fun _ => formatByte_write_of_lt _
  exact (Follows.ensure _).bind (hformat.bind
    ((encodeBlocks_follows obs 0 job.first job.blocks).bind htail))

end DeltaStream
end VertexPack
