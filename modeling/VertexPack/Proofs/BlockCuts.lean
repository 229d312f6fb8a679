import VertexPack.Proofs.BlockChannels
import VertexPack.Proofs.Partition

/-! Records that are written block by block, each block with the predictor that the one before it
left. Wherever they are cut behind whole groups, every channel has the same groups, and the same is
heard of them; only the selector headers are others, one for each block. -/
namespace VertexPack
open Transcript

/-- A list in consecutive blocks of at most 256 items, all but the last made of whole groups. -/
structure IsCut {α : Type} (items : List α) (cut : List (List α)) : Prop where
  flatten_eq : cut.flatten = items
  bounds : ∀ b ∈ cut, b ≠ [] ∧ b.length ≤ 256
  aligned : ∀ b ∈ cut.dropLast, 16 ∣ b.length

theorem Block.encodeAll_follows {σ : Type} {size : Nat} (obs : Observer σ) (p : Record size)
    (blocks : List (List (Record size))) :
    Follows obs (DeltaStream.blocksMarks p blocks) (encodeAll obs p blocks) := by
  induction blocks generalizing p with
  | nil => exact Follows.pure
  | cons b bs ih => exact (DeltaStream.Block.encode_follows obs p b).bind (ih (b.getLastD p))

namespace DeltaStream
variable {size : Nat}

def blockGroups (p : Record size) (blocks : List (List (Record size))) :
    List (Fin size → List Group) :=
  blockColumns (fun q column => Group.split (Delta.encode q column)) p blocks

theorem blockGroups_cons (p : Record size) (b : List (Record size))
    (bs : List (List (Record size))) :
    blockGroups p (b :: bs) =
      (fun k => Group.split (Delta.encode (p.get k) (Record.column k b))) ::
        blockGroups (b.getLastD p) bs := rfl

/-- The bytes of blocks with the given groups: for every channel of every block a selector header,
and then the payloads of its groups. -/
def groupsBytes (rows : List (Fin size → List Group)) : List UInt8 :=
  rows.flatMap fun row => (List.finRange size).flatMap fun k =>
    Width.header ((row k).map (·.select.1)) ++ ((row k).map Group.payload).flatten

theorem blocksBytes_eq (p : Record size) (blocks : List (List (Record size))) :
    blocksBytes p blocks = groupsBytes (blockGroups p blocks) := by
  induction blocks generalizing p with
  | nil => rfl
  | cons b bs ih =>
    rw [blocksBytes, ih, blockGroups_cons, groupsBytes, groupsBytes, List.flatMap_cons]
    simp only [Block.bytes, Channel.columnBytes, Channel.bytes, List.flatMap_def]

theorem blockGroups_lengths (p : Record size) (blocks : List (List (Record size))) :
    List.Forall₂ (fun (row : Fin size → List Group) b => ∀ k,
      (row k).length = Layout.groupCount b.length) (blockGroups p blocks) blocks := by
  induction blocks generalizing p with
  | nil => exact .nil
  | cons b bs ih =>
    refine .cons (fun k => ?_) (ih (b.getLastD p))
    rw [Group.split_length, Delta.encode_length, Record.column_length]

section Cut
variable {blocks : List (List (Record size))} (haligned : ∀ b ∈ blocks.dropLast, 16 ∣ b.length)
include haligned

theorem flatMap_blockGroups (p : Record size) (k : Fin size) :
    (blockGroups p blocks).flatMap (· k) =
      Group.split (Delta.encode (p.get k) (Record.column k blocks.flatten)) := by
  refine flatMap_blockColumns (fun q => ?_) (fun q us vs h => ?_) p haligned k
  · rw [Delta.encode, Group.split, chunks_nil (by decide), List.map_nil]
  · rw [Delta.encode_append, Group.split_append (by rwa [Delta.encode_length])]

theorem filter_about_blocksMarks {kind : Event → Bool}
    (hnil : ∀ k q, ((Entry.ofColumn q []).events k).filter kind = [])
    (happend : ∀ k q us vs, 16 ∣ us.length →
      ((Entry.ofColumn q (us ++ vs)).events k).filter kind =
        ((Entry.ofColumn q us).events k).filter kind ++
          ((Entry.ofColumn (us.getLastD q) vs).events k).filter kind)
    (p : Record size) (k : Fin size) :
    (Account.about k (events (blocksMarks p blocks))).filter kind =
      ((Entry.ofColumn (p.get k) (Record.column k blocks.flatten)).events k).filter kind := by
  have hcut := flatMap_blockColumns
    (F := fun q column => ((Entry.ofColumn q column).events k).filter kind)
    (hnil k) (happend k) p haligned k
  rw [events_blocksMarks, Entry.about_streamEvents, List.filter_flatMap, Entry.ofChannel,
    List.flatMap_map, blockEntries_eq, ← hcut,
    ← map_blockColumns Entry.ofColumn fun entry => (entry.events k).filter kind, List.flatMap_map]

theorem filter_isGroup_blocksMarks (p : Record size) (k : Fin size) :
    (Account.about k (events (blocksMarks p blocks))).filter Event.isGroup =
      ((Entry.ofColumn (p.get k) (Record.column k blocks.flatten)).events k).filter
        Event.isGroup := by
  refine filter_about_blocksMarks haligned (fun k q => ?_) (fun k q us vs h => ?_) p k
  · rw [Entry.filter_isGroup, Entry.groups_nil, List.map_nil]
  · simp only [Entry.filter_isGroup, Entry.groups_append q h, List.map_append]

theorem filter_isConsistency_blocksMarks (p : Record size) (k : Fin size) :
    (Account.about k (events (blocksMarks p blocks))).filter Event.isConsistency =
      ((Entry.ofColumn (p.get k) (Record.column k blocks.flatten)).events k).filter
        Event.isConsistency := by
  refine filter_about_blocksMarks haligned (fun k q => ?_) (fun k q us vs h => ?_) p k
  · rw [Entry.filter_isConsistency, Entry.runs_nil, List.map_nil]
  · simp only [Entry.filter_isConsistency, Entry.runs_append q h, List.map_append]

end Cut
end DeltaStream

namespace Predictor
open DeltaStream

/-- Blocks that are written one by one, with the predictor that is left, the groups of each of them,
and what an observer that wants everything hears. -/
structure Writes (p : Predictor) (blocks : List (List UInt8)) (q : Predictor)
    (rows : List (Fin p.size → List Group)) (es : List Event) : Prop where
  fits : ∀ (σ : Type) (obs : Observer σ) (s : Session σ),
    (groupsBytes rows).length + Layout.headroom ≤ s.writer.remaining →
    ∃ s', p.encodeBlocks obs blocks s = .ok q s'
  written : ∀ (σ : Type) (obs : Observer σ) (s s' : Session σ) (q' : Predictor),
    p.encodeBlocks obs blocks s = .ok q' s' →
    q' = q ∧ s'.writer = s.writer.push (groupsBytes rows)
  heard : ∀ (σ : Type) (obs : Observer σ) (s s' : Session σ) (q' : Predictor),
    (∀ observed, obs.isEnabled observed = true) → p.encodeBlocks obs blocks s = .ok q' s' →
    s'.observed = es.foldl obs.record s.observed

theorem writes_cut (p : Predictor) {records : List (Record p.size)}
    {cut : List (List (Record p.size))} (h : IsCut records cut) :
    Writes p (cut.map Record.flatten) (p.advance records) (blockGroups p.record cut)
      (events (blocksMarks p.record cut)) := by
  have hrun {σ : Type} (obs : Observer σ) :=
    encodeBlocks_flatten obs p.record p.size_pos p.size_le h.bounds
  rw [h.flatten_eq] at hrun
  refine ⟨fun σ obs s hroom => ?_, fun σ obs s s' q' hs => ?_, fun σ obs s s' q' henabled hs => ?_⟩
  · obtain ⟨room, happends⟩ := Block.encodeAll_appends obs p.record cut
    rw [← blocksBytes_eq] at hroom
    obtain ⟨s', hs', -⟩ := happends.fits s (Nat.le_trans happends.room_le hroom)
    exact ⟨s', (congrFun (hrun obs) s).trans (bind_of_ok hs')⟩
  · obtain ⟨room, happends⟩ := Block.encodeAll_appends obs p.record cut
    rw [← blocksBytes_eq]
    exact happends.of_bind_pure_eq_ok ((congrFun (hrun obs) s).symm.trans hs)
  · obtain ⟨_, _, hstep, hpure⟩ := bind_eq_ok_iff.1 ((congrFun (hrun obs) s).symm.trans hs)
    cases hpure
    rw [(Block.encodeAll_follows obs p.record cut).observed_of_ok hstep,
      listen_eq_foldl henabled]

/-- Two cuts of the same records, written with the same predictor: the same predictor is left, and
every channel has the same groups with the same payloads, and the same bits that its values share.
What the blocks take is a selector header for each channel of each block, and these payloads. -/
theorem encodeBlocks_cuts (p : Predictor) {records : List (Record p.size)}
    {cut cut' : List (List (Record p.size))} (h : IsCut records cut) (h' : IsCut records cut') :
    ∃ rows rows' es es',
      Writes p (cut.map Record.flatten) (p.advance records) rows es ∧
      Writes p (cut'.map Record.flatten) (p.advance records) rows' es' ∧
      List.Forall₂ (fun (row : Fin p.size → List Group) b => ∀ k,
        (row k).length = Layout.groupCount b.length) rows cut ∧
      List.Forall₂ (fun (row : Fin p.size → List Group) b => ∀ k,
        (row k).length = Layout.groupCount b.length) rows' cut' ∧
      ∀ k : Fin p.size,
        (Account.about k es).filter Event.isGroup = (Account.about k es').filter Event.isGroup ∧
        (Account.about k es).filter Event.isConsistency =
          (Account.about k es').filter Event.isConsistency ∧
        (rows.flatMap (· k)).map Group.payload = (rows'.flatMap (· k)).map Group.payload := by
  refine ⟨_, _, _, _, p.writes_cut h, p.writes_cut h', blockGroups_lengths _ _,
    blockGroups_lengths _ _, fun k => ⟨?_, ?_, ?_⟩⟩
  · rw [filter_isGroup_blocksMarks h.aligned, filter_isGroup_blocksMarks h'.aligned,
      h.flatten_eq, h'.flatten_eq]
  · rw [filter_isConsistency_blocksMarks h.aligned, filter_isConsistency_blocksMarks h'.aligned,
      h.flatten_eq, h'.flatten_eq]
  · rw [flatMap_blockGroups h.aligned, flatMap_blockGroups h'.aligned, h.flatten_eq,
      h'.flatten_eq]

theorem encodeBlocks_cuts_seventeen_records :
    IsCut (List.replicate 17 (#v[7] : Record 1)) [List.replicate 17 #v[7]] ∧
    IsCut (List.replicate 17 (#v[7] : Record 1)) [List.replicate 16 #v[7], [#v[7]]] ∧
    ∃ q rows rows' es es',
      Writes ⟨1, #v[5], by decide, by decide⟩ [List.replicate 17 7] q rows es ∧
      Writes ⟨1, #v[5], by decide, by decide⟩ [List.replicate 16 7, [7]] q rows' es' ∧
      (Account.about 0 es).filter Event.isGroup = (Account.about 0 es').filter Event.isGroup := by
  have hone : IsCut (List.replicate 17 (#v[7] : Record 1)) [List.replicate 17 #v[7]] :=
    ⟨by decide, by decide, by decide⟩
  have htwo : IsCut (List.replicate 17 (#v[7] : Record 1)) [List.replicate 16 #v[7], [#v[7]]] :=
    ⟨by decide, by decide, by decide⟩
  obtain ⟨rows, rows', es, es', hwrites, hwrites', -, -, hchannels⟩ :=
    encodeBlocks_cuts ⟨1, #v[5], by decide, by decide⟩ hone htwo
  exact ⟨hone, htwo, _, rows, rows', es, es', hwrites, hwrites', (hchannels 0).1⟩

end Predictor
end VertexPack
