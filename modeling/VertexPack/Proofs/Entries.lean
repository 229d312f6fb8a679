import VertexPack.Proofs.Records
import VertexPack.Proofs.Splitting
import VertexPack.Proofs.StreamTranscript

/-! What an observer that wants everything hears of a stream: one entry for every channel of
every block, and at last the length of the stream. -/
namespace VertexPack
open Transcript

namespace Width

def least : Width → Nat
  | one => 0
  | two => 4
  | four => 8
  | eight => 16

def most : Width → Nat
  | one => 0
  | two | four => 15
  | eight => 16

def Holds (w : Width) (bytes : Nat) : Prop := w.least ≤ bytes ∧ bytes ≤ w.most

end Width

theorem Group.select_holds (g : Group) : g.select.1.Holds g.cost := by
  rw [← select_snd, select_eq, Width.Holds]
  by_cases hz : g.isZero = true
  · rw [if_pos hz]
    decide
  · rw [if_neg hz]
    split
    · decide
    · split
      · simp only [Width.least, Width.most]
        omega
      · simp only [Width.least, Width.most]
        omega

/-- What is heard of one channel of a block. -/
structure Entry where
  /-- The bits shared by each group of values, and the number of values. -/
  runs : List (UInt8 × Nat)
  header : Nat
  groups : List (Width × Nat)

namespace Entry

def bytes (e : Entry) : Nat := e.header + (e.groups.map (·.2)).sum

def events (k : Nat) (e : Entry) : List Event :=
  (e.runs.map fun run => .consistency k run.1 run.2) ++
    (e.groups.map fun group => .group k group.1 group.2) ++ [.header k e.header, .channel k e.bytes]

structure Covers (e : Entry) (n : Nat) : Prop where
  runs_length : e.runs.length = Layout.groupCount n
  values : (e.runs.map (·.2)).sum = n
  groups_length : e.groups.length = Layout.groupCount n
  header_eq : e.header = Width.headerSize (Layout.groupCount n)
  holds : ∀ group ∈ e.groups, group.1.Holds group.2

def ofColumn (p : UInt8) (column : List UInt8) : Entry where
  runs := Channel.consistency p (chunks Layout.groupSize column)
  header := Width.headerSize (Group.split (Delta.encode p column)).length
  groups := (Group.split (Delta.encode p column)).map fun g => (g.select.1, g.cost)

theorem bytes_ofColumn (p : UInt8) (column : List UInt8) :
    (ofColumn p column).bytes = (Channel.columnBytes p column).length := by
  rw [bytes, ofColumn, List.map_map, Channel.columnBytes, Channel.bytes_length]
  rfl

theorem consistency_counts (p : UInt8) (runs : List (List UInt8)) :
    (Channel.consistency p runs).map (·.2) = runs.map List.length := by
  induction runs generalizing p with
  | nil => rfl
  | cons run runs ih => rw [Channel.consistency, List.map_cons, List.map_cons, ih]

theorem ofColumn_covers (p : UInt8) (column : List UInt8) :
    (ofColumn p column).Covers column.length where
  runs_length := by
    rw [ofColumn, ← List.length_map (f := (·.2)), consistency_counts, List.length_map,
      chunks_length, Layout.groupCount]
  values := by
    rw [ofColumn, consistency_counts, ← List.length_flatten, chunks_flatten (by decide)]
  groups_length := by
    rw [ofColumn, List.length_map, Group.split_length, Delta.encode_length]
  header_eq := by
    rw [ofColumn, Group.split_length, Delta.encode_length]
  holds := by
    intro group hgroup
    obtain ⟨g, _, rfl⟩ := List.mem_map.1 hgroup
    exact g.select_holds

/-- The transcript of a channel says what its entry says. -/
theorem events_marks (k : Nat) (p : UInt8) (column : List UInt8) :
    Transcript.events (Channel.marks k p column) = (ofColumn p column).events k := by
  have hgroups (groups : List Group) :
      Transcript.events (groups.flatMap (Channel.groupMarks k)) =
        groups.map fun g => Event.group k g.select.1 g.cost := by
    induction groups with
    | nil => rfl
    | cons g gs ih =>
      rw [List.flatMap_cons, events_append, ih]
      rfl
  rw [Channel.marks, Channel.groupsMarks, Entry.events, bytes_ofColumn]
  simp only [events_cons, events_append, hgroups, Mark.events, ofColumn, List.map_map,
    Channel.consistencyEvents, List.nil_append, List.append_assoc]
  rfl

def blockEvents {size : Nat} (entries : Fin size → Entry) : List Event :=
  (List.finRange size).flatMap fun k => (entries k).events k

def blockBytes {size : Nat} (entries : Fin size → Entry) : Nat := ∑ k, (entries k).bytes

end Entry

namespace DeltaStream
variable {size : Nat}

def blockEntries : Record size → List (List (Record size)) → List (Fin size → Entry)
  | _, [] => []
  | p, b :: bs =>
    (fun k => Entry.ofColumn (p.get k) (Record.column k b)) :: blockEntries (b.getLastD p) bs

theorem events_blockMarks (p : Record size) (records : List (Record size)) :
    events (Block.marks p records) =
      Entry.blockEvents fun k => Entry.ofColumn (p.get k) (Record.column k records) := by
  rw [Block.marks, events, List.flatMap_assoc, Entry.blockEvents]
  congr 1
  funext k
  exact Entry.events_marks k (p.get k) (Record.column k records)

theorem events_blocksMarks (p : Record size) (blocks : List (List (Record size))) :
    events (blocksMarks p blocks) = (blockEntries p blocks).flatMap Entry.blockEvents := by
  induction blocks generalizing p with
  | nil => rfl
  | cons b bs ih =>
    rw [blocksMarks, events_append, events_blockMarks, ih, blockEntries, List.flatMap_cons]

theorem blocksBytes_length_eq (p : Record size) (blocks : List (List (Record size))) :
    (blocksBytes p blocks).length = ((blockEntries p blocks).map Entry.blockBytes).sum := by
  induction blocks generalizing p with
  | nil => rfl
  | cons b bs ih =>
    rw [blocksBytes, List.length_append, ih, blockEntries, List.map_cons, List.sum_cons,
      Block.bytes, List.length_flatMap, Entry.blockBytes, Fin.sum_univ_def]
    simp only [Entry.bytes_ofColumn]

theorem blockEntries_covers (p : Record size) (blocks : List (List (Record size))) :
    List.Forall₂ (fun (entries : Fin size → Entry) n => ∀ k, (entries k).Covers n)
      (blockEntries p blocks) (blocks.map List.length) := by
  induction blocks generalizing p with
  | nil => exact .nil
  | cons b bs ih =>
    refine .cons (fun k => ?_) (ih _)
    have h := Entry.ofColumn_covers (p.get k) (Record.column k b)
    rwa [Record.column_length] at h

theorem events_jobMarks (job : Job) :
    events job.marks = (blockEntries job.first job.blocks).flatMap Entry.blockEvents := by
  rw [Job.marks, events_cons, events_cons, events_append, events_blocksMarks]
  exact List.append_nil _

theorem jobBytes_length (job : Job) :
    job.bytes.length = 1 + Layout.tailSize job.size.val +
      ((blockEntries job.first job.blocks).map Entry.blockBytes).sum := by
  have htail := tailBytes_length job.first.toList
  rw [Vector.length_toList] at htail
  rw [Job.bytes, List.length_cons, bodyBytes, List.length_append, ← blocksBytes_length_eq]
  change (blocksBytes job.first job.blocks).length + (tailBytes job.first.toList).length + 1 = _
  omega

def blockCounts (count size : Nat) : List Nat :=
  (List.range (ceilDiv count (Layout.blockLength size))).map fun b =>
    min (Layout.blockLength size) (count - Layout.blockLength size * b)

theorem blockCounts_eq {α : Type} (records : List α) (size : Nat) :
    (chunks (Layout.blockLength size) records).map List.length =
      blockCounts records.length size := by
  rw [chunks, pieces_eq_map, List.map_map, blockCounts]
  simp only [Function.comp_def, List.length_take, List.length_drop]

theorem sum_blockCounts {f : Nat → Nat} (size : VertexSize) (hzero : f 0 = 0)
    (hadd : ∀ n, f (min (Layout.blockLength size.val) n) +
      f (n - Layout.blockLength size.val) = f n) (count : Nat) :
    ((blockCounts count size.val).map f).sum = f count := by
  have hB := Layout.blockLength_pos size
  have hchunks (xs : List Unit) :
      ((chunks (Layout.blockLength size.val) xs).map fun b => f b.length).sum = f xs.length := by
    induction xs using chunks_induction hB with
    | nil => rw [chunks_nil hB, List.length_nil, hzero]; rfl
    | step xs hne ih =>
      rw [chunks_of_ne_nil hB hne, List.map_cons, List.sum_cons, ih, List.length_take,
        List.length_drop, hadd]
  have hcount : (List.replicate count ()).length = count := List.length_replicate
  rw [← hcount, ← blockCounts_eq, List.map_map]
  exact hchunks _

theorem sum_blockCounts_self (size : VertexSize) (count : Nat) :
    (blockCounts count size.val).sum = count := by
  have h := sum_blockCounts (f := id) size rfl (fun n => by simp only [id]; omega) count
  rwa [List.map_id] at h

/-- Blocks are whole groups but for the last, so they hold as many groups as the column does. -/
theorem sum_groupCount (size : VertexSize) (count : Nat) :
    ((blockCounts count size.val).map Layout.groupCount).sum = Layout.groupCount count := by
  obtain ⟨q, hq⟩ := Layout.groupSize_dvd_blockLength size.val
  refine sum_blockCounts size rfl (fun n => ?_) count
  rw [hq]
  simp only [Layout.groupCount, Layout.groupSize, ceilDiv]
  omega

end DeltaStream
end VertexPack
