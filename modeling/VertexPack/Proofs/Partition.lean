import VertexPack.Proofs.ExactAccount

/-! What the account of a channel takes from its column alone. Blocks are whole groups but for the
last, so wherever they end, the groups are those of the column as one block, and so are the bits
that the values of each group share. -/
namespace VertexPack

namespace Event

def isGroup : Event → Bool
  | group _ _ _ => true
  | header _ _ | consistency _ _ _ | channel _ _ | stream _ _ => false

def isConsistency : Event → Bool
  | consistency _ _ _ => true
  | header _ _ | group _ _ _ | channel _ _ | stream _ _ => false

end Event

namespace ChannelAccount

structure SameGroups (c c' : ChannelAccount) : Prop where
  groupBytes : c.groupBytes = c'.groupBytes
  groupCounts : c.groupCounts = c'.groupCounts
  sharedBits : c.sharedBits = c'.sharedBits

theorem SameGroups.symm {c c' : ChannelAccount} (h : c.SameGroups c') : c'.SameGroups c :=
  ⟨h.groupBytes.symm, h.groupCounts.symm, h.sharedBits.symm⟩

theorem SameGroups.trans {c c' c'' : ChannelAccount} (h : c.SameGroups c')
    (h' : c'.SameGroups c'') : c.SameGroups c'' :=
  ⟨h.groupBytes.trans h'.groupBytes, h.groupCounts.trans h'.groupCounts,
    h.sharedBits.trans h'.sharedBits⟩

section View
variable {α : Type} (view : ChannelAccount → α) {p : Event → Bool}

theorem view_after_filter (hother : ∀ c e, p e = false → view (e.change c) = view c)
    (hchange : ∀ c c' e, view c = view c' → view (Event.change e c) = view (e.change c'))
    {c c' : ChannelAccount} (h : view c = view c') (es : List Event) :
    view (c.after es) = view (c'.after (es.filter p)) := by
  induction es generalizing c c' with
  | nil => exact h
  | cons e es ih =>
    cases hp : p e with
    | true =>
      rw [List.filter_cons_of_pos hp]
      exact ih (hchange c c' e h)
    | false =>
      rw [List.filter_cons_of_neg (by simp [hp])]
      exact ih ((hother c e hp).trans h)

theorem view_after_congr (hother : ∀ c e, p e = false → view (e.change c) = view c)
    (hchange : ∀ c c' e, view c = view c' → view (Event.change e c) = view (e.change c'))
    {es es' : List Event} (h : es.filter p = es'.filter p) (c : ChannelAccount) :
    view (c.after es) = view (c.after es') := by
  rw [view_after_filter view hother hchange rfl es, h,
    ← view_after_filter view hother hchange rfl es']

end View

theorem groups_after_congr {es es' : List Event}
    (h : es.filter Event.isGroup = es'.filter Event.isGroup) (c : ChannelAccount) :
    (c.after es).groupBytes = (c.after es').groupBytes ∧
      (c.after es).groupCounts = (c.after es').groupCounts := by
  refine Prod.mk.inj (view_after_congr (fun c => (c.groupBytes, c.groupCounts))
    (fun c e he => ?_) (fun c c' e hc => ?_) h c)
  · cases e with
    | group _ _ _ => cases he
    | header _ _ | consistency _ _ _ | channel _ _ | stream _ _ => rfl
  · obtain ⟨hbytes, hcounts⟩ := Prod.mk.inj hc
    cases e with
    | group _ _ _ => simp only [Event.change, addGroup, hbytes, hcounts]
    | header _ _ | consistency _ _ _ | channel _ _ | stream _ _ => exact hc

theorem sharedBits_after_congr {es es' : List Event}
    (h : es.filter Event.isConsistency = es'.filter Event.isConsistency) (c : ChannelAccount) :
    (c.after es).sharedBits = (c.after es').sharedBits := by
  refine view_after_congr sharedBits (fun c e he => ?_) (fun c c' e hc => ?_) h c
  · cases e with
    | consistency _ _ _ => cases he
    | header _ _ | group _ _ _ | channel _ _ | stream _ _ => rfl
  · cases e with
    | consistency _ _ _ => simp only [Event.change, addConsistency, hc]
    | header _ _ | group _ _ _ | channel _ _ | stream _ _ => exact hc

/-- Events of other kinds, and their places between those of these kinds, do not matter. -/
theorem SameGroups.after {es es' : List Event}
    (hgroups : es.filter Event.isGroup = es'.filter Event.isGroup)
    (hruns : es.filter Event.isConsistency = es'.filter Event.isConsistency)
    (c : ChannelAccount) : (c.after es).SameGroups (c.after es') where
  groupBytes := (groups_after_congr hgroups c).1
  groupCounts := (groups_after_congr hgroups c).2
  sharedBits := sharedBits_after_congr hruns c

end ChannelAccount

namespace Channel

theorem consistency_append (p : UInt8) (runs runs' : List (List UInt8)) :
    consistency p (runs ++ runs') =
      consistency p runs ++ consistency (runs.flatten.getLastD p) runs' := by
  induction runs generalizing p with
  | nil => rfl
  | cons run runs ih =>
    rw [List.cons_append, consistency, ih, consistency, List.cons_append, List.flatten_cons,
      getLastD_append]

end Channel

namespace Entry
variable {us vs : List UInt8}

theorem filter_isGroup (k : Nat) (entry : Entry) :
    (entry.events k).filter Event.isGroup =
      entry.groups.map fun group => .group k group.1 group.2 := by
  simp [events, Event.isGroup, List.filter_map, Function.comp_def]

theorem filter_isConsistency (k : Nat) (entry : Entry) :
    (entry.events k).filter Event.isConsistency =
      entry.runs.map fun run => .consistency k run.1 run.2 := by
  simp [events, Event.isConsistency, List.filter_map, Function.comp_def]

theorem groups_nil (p : UInt8) : (ofColumn p []).groups = [] :=
  List.eq_nil_of_length_eq_zero (ofColumn_covers p []).groups_length

theorem runs_nil (p : UInt8) : (ofColumn p []).runs = [] :=
  List.eq_nil_of_length_eq_zero (ofColumn_covers p []).runs_length

theorem groups_append (p : UInt8) (h : 16 ∣ us.length) :
    (ofColumn p (us ++ vs)).groups =
      (ofColumn p us).groups ++ (ofColumn (us.getLastD p) vs).groups := by
  have hdvd : 16 ∣ (Delta.encode p us).length := by rwa [Delta.encode_length]
  rw [ofColumn, Delta.encode_append, Group.split_append hdvd, List.map_append]
  rfl

theorem runs_append (p : UInt8) (h : 16 ∣ us.length) :
    (ofColumn p (us ++ vs)).runs =
      (ofColumn p us).runs ++ (ofColumn (us.getLastD p) vs).runs := by
  rw [ofColumn, chunks_append (n := Layout.groupSize) (by decide) h, Channel.consistency_append,
    chunks_flatten (by decide)]
  rfl

end Entry

namespace DeltaStream
variable {size : Nat} {α β γ : Type}

/-- Something that every channel of consecutive blocks has, told from the byte that the channel is
predicted from and from its column; the first block is predicted from `p`. -/
def blockColumns (F : UInt8 → List UInt8 → β) :
    Record size → List (List (Record size)) → List (Fin size → β)
  | _, [] => []
  | p, b :: bs =>
    (fun k => F (p.get k) (Record.column k b)) :: blockColumns F (b.getLastD p) bs

theorem blockEntries_eq (p : Record size) (blocks : List (List (Record size))) :
    blockEntries p blocks = blockColumns Entry.ofColumn p blocks := by
  induction blocks generalizing p with
  | nil => rfl
  | cons b bs ih => rw [blockEntries, ih, blockColumns]

theorem map_blockColumns (F : UInt8 → List UInt8 → β) (g : β → γ) (p : Record size)
    (blocks : List (List (Record size))) :
    (blockColumns F p blocks).map (fun row k => g (row k)) =
      blockColumns (fun q column => g (F q column)) p blocks := by
  induction blocks generalizing p with
  | nil => rfl
  | cons b bs ih => rw [blockColumns, List.map_cons, ih, blockColumns]

/-- What is the same for a column whether or not it is cut behind whole groups, is the same for
all blocks of a channel as for one. -/
theorem flatMap_blockColumns {F : UInt8 → List UInt8 → List α} (hnil : ∀ q, F q [] = [])
    (happend : ∀ q us vs, 16 ∣ us.length → F q (us ++ vs) = F q us ++ F (us.getLastD q) vs)
    (p : Record size) {blocks : List (List (Record size))}
    (haligned : ∀ b ∈ blocks.dropLast, 16 ∣ b.length) (k : Fin size) :
    (blockColumns F p blocks).flatMap (· k) =
      F (p.get k) (Record.column k blocks.flatten) := by
  induction blocks generalizing p with
  | nil => exact (hnil _).symm
  | cons b bs ih =>
    rw [blockColumns, List.flatMap_cons, List.flatten_cons, Record.column_append]
    -- A block with others behind it is whole groups; the last one has nothing behind it.
    cases bs with
    | nil => simp [blockColumns, Record.column]
    | cons c cs =>
      rw [List.dropLast_cons_of_ne_nil (List.cons_ne_nil c cs)] at haligned
      obtain ⟨hb, hrest⟩ := List.forall_mem_cons.1 haligned
      rw [ih (b.getLastD p) hrest, happend _ _ _ (by rwa [Record.column_length]),
        Record.getLastD_column]

end DeltaStream

namespace Entry

theorem flatMap_ofChannel {α : Type} {f : Entry → List α} {size B : Nat}
    (hnil : ∀ p, f (ofColumn p []) = [])
    (happend : ∀ p us vs, 16 ∣ us.length →
      f (ofColumn p (us ++ vs)) = f (ofColumn p us) ++ f (ofColumn (us.getLastD p) vs))
    (hB : 0 < B) (hdvd : 16 ∣ B) (p : Record size) (records : List (Record size))
    (k : Fin size) :
    (ofChannel k (DeltaStream.blockEntries p (chunks B records))).flatMap f =
      f (ofColumn (p.get k) (Record.column k records)) := by
  have haligned (b : List (Record size)) (hb : b ∈ (chunks B records).dropLast) :
      16 ∣ b.length := (length_of_mem_dropLast_chunks hB hb).symm ▸ hdvd
  have hcut := DeltaStream.flatMap_blockColumns (F := fun q column => f (ofColumn q column)) hnil
    happend p haligned k
  rw [← DeltaStream.map_blockColumns, List.flatMap_map, chunks_flatten hB] at hcut
  rw [ofChannel, List.flatMap_map, DeltaStream.blockEntries_eq, hcut]

end Entry

namespace Account
variable {m : Nat} {size : VertexSize}

theorem channel_sameGroups (p : Record size.val) (records : List (Record size.val))
    (k : Fin size.val) :
    ((ofBlocks m (DeltaStream.blockEntries p
      (chunks (Layout.blockLength size.val) records))).channel k).SameGroups
      (ChannelAccount.empty.after
        ((Entry.ofColumn (p.get k) (Record.column k records)).events k)) := by
  have hB := Layout.blockLength_pos size
  have hdvd := Layout.groupSize_dvd_blockLength size.val
  rw [channel_ofBlocks]
  refine ChannelAccount.SameGroups.after ?_ ?_ _
  · rw [List.filter_flatMap]
    refine Entry.flatMap_ofChannel (fun p => ?_) (fun p us vs h => ?_) hB hdvd p records k
    · rw [Entry.filter_isGroup, Entry.groups_nil, List.map_nil]
    · simp only [Entry.filter_isGroup, Entry.groups_append p h, List.map_append]
  · rw [List.filter_flatMap]
    refine Entry.flatMap_ofChannel (fun p => ?_) (fun p us vs h => ?_) hB hdvd p records k
    · rw [Entry.filter_isConsistency, Entry.runs_nil, List.map_nil]
    · simp only [Entry.filter_isConsistency, Entry.runs_append p h, List.map_append]

end Account

theorem DeltaStream.sameGroups_of_ok {version : UInt8} {count m len : Nat} {size : VertexSize}
    {source destination : List UInt8} {s : Session Account}
    (h : encode Account.observer version count size.val source
      (.start destination (Account.empty m)) = .ok len s) (k : Fin size.val) :
    (s.observed.channel k).SameGroups (ChannelAccount.empty.after
      ((Entry.ofColumn ((firstRecord (Record.split size.val count source)).get k)
        (Record.column k (Record.split size.val count source))).events k)) := by
  obtain ⟨format, _, hobserved⟩ := encode_ok_transcript _ _ h
  rw [Account.observer_foldl, events_jobMarks] at hobserved
  rw [hobserved]
  exact Account.channel_sameGroups (m := m)
    (firstRecord (Record.split size.val count source)) (Record.split size.val count source) k

end VertexPack
