import VertexPack.Proofs.Accounts
import VertexPack.Proofs.Observation

/-! An account of a stream is exact. What was counted group by group is what was counted by
positions, over every channel of every block; where the room runs out, they differ in the one
channel that was being written. -/
namespace VertexPack
open Transcript

namespace Entry

theorem channel_of_mem {k : Nat} {entry : Entry} {e : Event} (h : e ∈ entry.events k) :
    e.channel? = some k := by
  simp only [events, List.mem_append, List.mem_map, List.mem_cons, List.not_mem_nil,
    or_false] at h
  rcases h with (⟨_, _, rfl⟩ | ⟨_, _, rfl⟩) | rfl | rfl <;> rfl

theorem about_events (k j : Nat) (entry : Entry) :
    Account.about k (entry.events j) = if j = k then entry.events j else [] :=
  Account.about_of_channel fun _ => channel_of_mem

theorem flatMap_ite_eq {ι α : Type} [DecidableEq ι] {l : List ι} {k : ι} (hl : l.Nodup)
    (hk : k ∈ l) (f : ι → List α) : (l.flatMap fun i => if i = k then f i else []) = f k := by
  induction l with
  | nil => cases hk
  | cons i l ih =>
    obtain ⟨hi, hl⟩ := List.nodup_cons.1 hl
    rw [List.flatMap_cons]
    by_cases hik : i = k
    · subst hik
      have hrest : (l.flatMap fun j => if j = i then f j else []) = [] := by
        rw [List.flatMap_eq_nil_iff]
        intro j hj
        exact if_neg fun h : j = i => hi (h ▸ hj)
      rw [if_pos rfl, hrest, List.append_nil]
    · rw [if_neg hik, List.nil_append]
      exact ih hl ((List.mem_cons.1 hk).resolve_left (Ne.symm hik))

section Block
variable {size : Nat} (entries : Fin size → Entry)

theorem about_blockEvents (k : Fin size) :
    Account.about k (blockEvents entries) = (entries k).events k := by
  rw [blockEvents, Account.about, List.filter_flatMap]
  have hstep (j : Fin size) : ((entries j).events j).filter (·.channel? = some k.val) =
      if j = k then (entries j).events j else [] := by
    rw [← Account.about, about_events]
    simp only [Fin.val_inj]
  simp only [hstep]
  exact flatMap_ite_eq (List.nodup_finRange size) (List.mem_finRange k) fun j =>
    (entries j).events j

theorem about_blockEvents_of_le {k : Nat} (hk : size ≤ k) :
    Account.about k (blockEvents entries) = [] := by
  rw [blockEvents, Account.about, List.filter_flatMap, List.flatMap_eq_nil_iff]
  intro j _
  rw [← Account.about, about_events, if_neg (by omega)]

end Block

def ofChannel {size : Nat} (k : Fin size) (blocks : List (Fin size → Entry)) : List Entry :=
  blocks.map (· k)

theorem about_streamEvents {size : Nat} (k : Fin size) (blocks : List (Fin size → Entry)) :
    Account.about k (blocks.flatMap blockEvents) = (ofChannel k blocks).flatMap (events k) := by
  rw [Account.about, List.filter_flatMap, ofChannel, List.flatMap_map]
  congr 1
  funext entries
  exact about_blockEvents entries k

theorem sum_flatMap {ι α : Type} {f : ι → List α} {w : α → Nat} {g : ι → Nat}
    (h : ∀ i, ((f i).map w).sum = g i) (l : List ι) :
    ((l.flatMap f).map w).sum = (l.map g).sum := by
  induction l with
  | nil => rfl
  | cons i l ih =>
    rw [List.flatMap_cons, List.map_append, List.sum_append, h, ih, List.map_cons, List.sum_cons]

/-- A weight of events over an entry: what its runs, its groups, its header and its size weigh. -/
theorem sum_events (w : Event → Nat) (k : Nat) (entry : Entry) :
    ((entry.events k).map w).sum =
      (entry.runs.map fun run => w (.consistency k run.1 run.2)).sum +
        (entry.groups.map fun group => w (.group k group.1 group.2)).sum +
          (w (.header k entry.header) + w (.channel k entry.bytes)) := by
  simp [events, Function.comp_def, Nat.add_assoc]

theorem sum_balance (k : Nat) (entry : Entry) :
    ((entry.events k).map Event.counted).sum = entry.bytes ∧
      ((entry.events k).map Event.sized).sum = entry.bytes := by
  simp [sum_events, Event.counted, Event.sized, bytes, Nat.add_comm]

end Entry
namespace ChannelAccount

/-- The totals of a channel of `count` records of `size` bytes. -/
structure Exact (c : ChannelAccount) (count size : Nat) : Prop where
  counted : c.countedBytes = c.size
  header : c.header = ((DeltaStream.blockCounts count size).map fun n =>
    Width.headerSize (Layout.groupCount n)).sum
  groups : total c.groupCounts.toList = Layout.groupCount count
  one : c.bytesOf .one = 0
  two : 4 * c.countOf .two ≤ c.bytesOf .two ∧ c.bytesOf .two ≤ 15 * c.countOf .two
  four : 8 * c.countOf .four ≤ c.bytesOf .four ∧ c.bytesOf .four ≤ 15 * c.countOf .four
  eight : c.bytesOf .eight = 16 * c.countOf .eight
  shared : ∀ i : Fin 8, c.sharedBits.get i ≤ count

theorem Exact.size_eq {c : ChannelAccount} {count size : Nat} (h : c.Exact count size) :
    c.size = c.header + total c.groupBytes.toList := h.counted.symm

theorem empty_holds : empty.Holds := by
  intro w
  cases w <;> decide

theorem empty_sharedLe : empty.SharedLe 0 := by
  intro i
  exact Nat.le_of_eq (Vector.getElem_replicate i.isLt)

end ChannelAccount

namespace Entry

theorem covers_ofChannel {size : Nat} {blocks : List (Fin size → Entry)} {counts : List Nat}
    (h : List.Forall₂ (fun entries n => ∀ k, (entries k).Covers n) blocks counts) (k : Fin size) :
    List.Forall₂ Covers (ofChannel k blocks) counts :=
  List.forall₂_map_left_iff.2 (h.imp fun _ _ hentries => hentries k)

section Covered
variable {entries : List Entry} {counts : List Nat}

theorem sum_eq_of_covers (hcover : List.Forall₂ Covers entries counts) {g : Entry → Nat}
    {h : Nat → Nat} (hg : ∀ {entry : Entry} {n : Nat}, entry.Covers n → g entry = h n) :
    (entries.map g).sum = (counts.map h).sum := by
  induction hcover with
  | nil => rfl
  | cons hentry _ ih =>
    rw [List.map_cons, List.map_cons, List.sum_cons, List.sum_cons, ih, hg hentry]

theorem Covers.holds_of_mem {entry : Entry} {n k : Nat} (h : entry.Covers n) {e : Event}
    (he : e ∈ entry.events k) : e.Holds := by
  simp only [events, List.mem_append, List.mem_map, List.mem_cons, List.not_mem_nil,
    or_false] at he
  rcases he with (⟨_, _, rfl⟩ | ⟨group, hgroup, rfl⟩) | rfl | rfl
  · trivial
  · exact h.holds group hgroup
  · trivial
  · trivial

theorem holds_of_covers (hcover : List.Forall₂ Covers entries counts) (k : Nat) :
    ∀ e ∈ entries.flatMap (events k), e.Holds := by
  induction hcover with
  | nil => exact nofun
  | cons hentry _ ih =>
    intro e he
    rw [List.flatMap_cons, List.mem_append] at he
    rcases he with he | he
    · exact hentry.holds_of_mem he
    · exact ih e he

end Covered

/-- A channel whose entries cover all records has exact totals. -/
theorem exact_after {entries : List Entry} {size : VertexSize} {count : Nat} (k : Nat)
    (hcover : List.Forall₂ Covers entries (DeltaStream.blockCounts count size.val)) :
    (ChannelAccount.empty.after (entries.flatMap (events k))).Exact count size.val := by
  have hholds := ChannelAccount.empty_holds.after (holds_of_covers hcover k)
  have hvalued (entry : Entry) :
      ((entry.events k).map Event.valued).sum = (entry.runs.map (·.2)).sum := by
    simp [sum_events, Event.valued]
  have hheader (entry : Entry) : ((entry.events k).map Event.headed).sum = entry.header := by
    simp [sum_events, Event.headed]
  have hgroups (entry : Entry) :
      ((entry.events k).map Event.grouped).sum = entry.groups.length := by
    simp [sum_events, Event.grouped]
  have hshared := ChannelAccount.empty_sharedLe.after (entries.flatMap (events k))
  rw [Nat.zero_add, sum_flatMap hvalued,
    sum_eq_of_covers hcover (h := id) fun h => h.values, List.map_id,
    DeltaStream.sum_blockCounts_self] at hshared
  have hadds := ChannelAccount.empty.adds_after (entries.flatMap (events k))
  have hcounted := hadds.countedBytes
  have hsized := hadds.size
  have hheaded := hadds.header
  have hgrouped := hadds.groups
  rw [sum_flatMap fun entry => (sum_balance k entry).1] at hcounted
  rw [sum_flatMap fun entry => (sum_balance k entry).2] at hsized
  rw [sum_flatMap hheader, sum_eq_of_covers hcover fun h => h.header_eq] at hheaded
  rw [sum_flatMap hgroups, sum_eq_of_covers hcover fun h => h.groups_length,
    DeltaStream.sum_groupCount] at hgrouped
  constructor
  · exact hcounted.trans hsized.symm
  · exact hheaded.trans (Nat.zero_add _)
  · exact hgrouped.trans (Nat.zero_add _)
  · have h := (hholds .one).2
    exact Nat.le_zero.1 ((Nat.zero_mul _).symm ▸ h)
  · exact hholds .two
  · exact hholds .four
  · exact Nat.le_antisymm (hholds .eight).2 (hholds .eight).1
  · exact hshared

end Entry
namespace Account
open Entry
variable {size m : Nat} (blocks : List (Fin size → Entry))

def ofBlocks (m : Nat) (blocks : List (Fin size → Entry)) : Account :=
  (blocks.flatMap blockEvents).foldl record (empty m)

theorem channel_ofBlocks (k : Fin size) :
    (ofBlocks m blocks).channel k =
      ChannelAccount.empty.after ((ofChannel k blocks).flatMap (events k)) := by
  rw [ofBlocks, channel_foldl, about_streamEvents, channel_empty]

theorem channel_ofBlocks_of_le {k : Nat} (hk : size ≤ k) :
    (ofBlocks m blocks).channel k = .empty := by
  have habout : about k (blocks.flatMap blockEvents) = [] := by
    rw [about, List.filter_flatMap, List.flatMap_eq_nil_iff]
    intro entries _
    exact about_blockEvents_of_le entries hk
  rw [ofBlocks, channel_foldl, habout, channel_empty]
  rfl

theorem blockBytes_ofBlocks :
    (ofBlocks m blocks).blockBytes = (blocks.map Entry.blockBytes).sum := by
  have hblock (entries : Fin size → Entry) :
      ((blockEvents entries).map Event.sized).sum = Entry.blockBytes entries := by
    rw [blockEvents, sum_flatMap fun k : Fin size => (sum_balance k (entries k)).2,
      Entry.blockBytes, Fin.sum_univ_def]
  have hsum := blockBytes_foldl (empty m)
    (blocks.flatMap blockEvents)
  rw [blockBytes_empty, Nat.zero_add] at hsum
  rw [ofBlocks, hsum, sum_flatMap hblock]

theorem channel_of_mem_blocks {e : Event} (he : e ∈ blocks.flatMap blockEvents) :
    ∃ k : Fin size, e.channel? = some k.val := by
  obtain ⟨entries, _, he⟩ := List.mem_flatMap.1 he
  obtain ⟨k, _, he⟩ := List.mem_flatMap.1 he
  exact ⟨k, channel_of_mem he⟩

theorem reach_of_mem {e : Event} (he : e ∈ blocks.flatMap blockEvents) : e.reach ≤ size := by
  obtain ⟨k, hk⟩ := channel_of_mem_blocks blocks he
  rw [Event.reach, hk]
  exact k.isLt

theorem channels_ofBlocks (hsize : 0 < size) (hblocks : blocks ≠ []) :
    (ofBlocks m blocks).channels.length = max m size := by
  obtain ⟨entries, rest, rfl⟩ := List.exists_cons_of_ne_nil hblocks
  have hlast : Event.header (size - 1) (entries ⟨size - 1, by omega⟩).header ∈
      (entries :: rest).flatMap blockEvents := by
    refine List.mem_flatMap.2 ⟨entries, List.mem_cons_self, List.mem_flatMap.2
      ⟨⟨size - 1, by omega⟩, List.mem_finRange _, ?_⟩⟩
    simp [Entry.events]
  have hreached : reached ((entries :: rest).flatMap blockEvents) = size := by
    apply Nat.le_antisymm
    · exact reached_le_iff.2 fun e he => reach_of_mem (entries :: rest) he
    · have hreach : size - 1 + 1 ≤ _ := reached_le_iff.1 (Nat.le_refl _) _ hlast
      rwa [Nat.sub_add_cancel hsize] at hreach
  rw [ofBlocks, channels_length_foldl, hreached, empty, List.length_replicate]

end Account
end VertexPack
