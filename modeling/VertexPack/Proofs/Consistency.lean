import VertexPack.Proofs.BlockChannels
import VertexPack.Proofs.Partition
import VertexPack.Proofs.SharedBits

/-! The bits that the values of a group share with the value before it, and the group that is
stored, are told separately and agree: all bits are shared exactly if the group takes no bytes.
So an account has no payload for a channel exactly if every bit was shared by every value. -/
namespace VertexPack
open Transcript

theorem getElem?_of_isPrefix {α : Type} {xs ys : List α} (h : xs <+: ys) {j : Nat}
    (hj : j < xs.length) : xs[j]? = ys[j]? := by
  rw [List.prefix_iff_getElem?.1 h j hj, List.getElem?_eq_getElem hj]

/-- What is heard of channel `k` while its groups are written: first the bits that the values of
each group share with the value before it, then the groups, of which some may be missing at the
end. -/
structure Consistent (k : Nat) (before : Nat → UInt8) (values : Nat → List UInt8)
    (es : List Event) : Prop where
  groups_le : (es.filter Event.isGroup).length ≤ (es.filter Event.isConsistency).length
  run : ∀ j < (es.filter Event.isConsistency).length, ∃ shared,
    (es.filter Event.isConsistency)[j]? = some (.consistency k shared (values j).length) ∧
      values j ≠ [] ∧ ∀ b < 8, shared.toBitVec.getLsbD b = true ↔
        ∀ v ∈ values j, v.toBitVec.getLsbD b = (before j).toBitVec.getLsbD b
  group : ∀ j < (es.filter Event.isGroup).length, ∃ shared width bytes,
    (es.filter Event.isConsistency)[j]? = some (.consistency k shared (values j).length) ∧
      (es.filter Event.isGroup)[j]? = some (.group k width bytes) ∧
      (shared = 0xFF ↔ width = .one) ∧ (width = .one ↔ bytes = 0)

theorem Consistent.nil (k : Nat) (before : Nat → UInt8) (values : Nat → List UInt8) :
    Consistent k before values [] :=
  ⟨Nat.le_refl 0, fun _ h => absurd h (Nat.not_lt_zero _), fun _ h => absurd h (Nat.not_lt_zero _)⟩

namespace Entry
variable {p : UInt8} {column : List UInt8} {k : Nat} {front : List Event}

/-- The runs of a column, each with the value before it. -/
def runsOf (p : UInt8) (column : List UInt8) : List (UInt8 × List UInt8) :=
  Channel.follow p (chunks Layout.groupSize column)

def groupOf (run : UInt8 × List UInt8) : Group := .ofList (Delta.encode run.1 run.2)

theorem runs_eq_map (p : UInt8) (column : List UInt8) : (ofColumn p column).runs =
    (runsOf p column).map fun run => (Channel.sharedBits run.1 run.2, run.2.length) :=
  Channel.consistency_eq_map p _

theorem groups_eq_map (p : UInt8) (column : List UInt8) : (ofColumn p column).groups =
    (runsOf p column).map fun run => ((groupOf run).select.1, (groupOf run).cost) := by
  change (Group.split (Delta.encode p column)).map _ = _
  rw [Channel.split_encode_eq_map, List.map_map]
  rfl

theorem bounds_of_mem_runsOf {run : UInt8 × List UInt8} (h : run ∈ runsOf p column) :
    run.2 ≠ [] ∧ run.2.length ≤ 16 :=
  of_mem_chunks (by decide) (Channel.mem_of_mem_follow h)

theorem shared_iff_isZero {run : UInt8 × List UInt8} (h : run ∈ runsOf p column) :
    Channel.sharedBits run.1 run.2 = 0xFF ↔ (groupOf run).isZero = true :=
  Channel.sharedBits_eq_iff_isZero (bounds_of_mem_runsOf h).2

theorem filter_isConsistency_eq_map (k : Nat) (p : UInt8) (column : List UInt8) :
    ((ofColumn p column).events k).filter Event.isConsistency = (runsOf p column).map fun run =>
      .consistency k (Channel.sharedBits run.1 run.2) run.2.length := by
  simp only [filter_isConsistency, runs_eq_map, List.map_map, Function.comp_def]

theorem filter_isGroup_eq_map (k : Nat) (p : UInt8) (column : List UInt8) :
    ((ofColumn p column).events k).filter Event.isGroup = (runsOf p column).map fun run =>
      .group k (groupOf run).select.1 (groupOf run).cost := by
  simp only [filter_isGroup, groups_eq_map, List.map_map, Function.comp_def]

/-- The bits are told of all groups before the first group is. -/
theorem length_filter_le {entry : Entry} (hlen : entry.groups.length ≤ entry.runs.length)
    (h : front <+: entry.events k) :
    (front.filter Event.isGroup).length ≤ (front.filter Event.isConsistency).length := by
  have hgroups := (h.filter Event.isGroup).length_le
  rw [filter_isGroup, List.length_map] at hgroups
  rw [events, List.append_assoc] at h
  -- What was heard ends among the runs, and has no group, or it has all runs.
  rcases prefix_append_cases h with hruns | ⟨rest, rfl, -⟩
  · have hnone : front.filter Event.isGroup = [] := by
      rw [List.filter_eq_nil_iff]
      intro e he
      obtain ⟨run, -, rfl⟩ := List.mem_map.1 (hruns.subset he)
      exact Bool.false_ne_true
    simp [hnone]
  · have hall : ((entry.runs.map fun run => Event.consistency k run.1 run.2).filter
        Event.isConsistency).length = entry.runs.length := by
      simp [List.filter_map, Function.comp_def, Event.isConsistency]
    rw [List.filter_append (p := Event.isConsistency), List.length_append, hall]
    omega

theorem consistent_of_isPrefix (h : front <+: (ofColumn p column).events k) :
    Consistent k (fun j => if j = 0 then p else column.getD (16 * j - 1) 0)
      (fun j => (column.drop (16 * j)).take 16) front := by
  have hcovers := ofColumn_covers p column
  have hle := length_filter_le
    (Nat.le_of_eq (hcovers.groups_length.trans hcovers.runs_length.symm)) h
  have hruns := h.filter Event.isConsistency
  have hgroups := h.filter Event.isGroup
  rw [filter_isConsistency_eq_map] at hruns
  rw [filter_isGroup_eq_map] at hgroups
  -- Event `j` of either kind is about run `j`, wherever the front part ends.
  have hrun (j : Nat) (hj : j < (front.filter Event.isConsistency).length) :
      ∃ run ∈ runsOf p column, run = (if j = 0 then p else column.getD (16 * j - 1) 0,
        (column.drop (16 * j)).take 16) ∧ (runsOf p column)[j]? = some run ∧
        (front.filter Event.isConsistency)[j]? =
          some (.consistency k (Channel.sharedBits run.1 run.2) run.2.length) := by
    have hlt : j < (runsOf p column).length := by
      have hle := hruns.length_le
      rw [List.length_map] at hle
      omega
    refine ⟨(runsOf p column)[j], List.getElem_mem hlt, Channel.getElem_follow_chunks hlt,
      List.getElem?_eq_getElem hlt, ?_⟩
    rw [getElem?_of_isPrefix hruns hj, List.getElem?_map, List.getElem?_eq_getElem hlt]
    rfl
  refine ⟨hle, fun j hj => ?_, fun j hj => ?_⟩
  · obtain ⟨run, hmem, rfl, -, hevent⟩ := hrun j hj
    exact ⟨_, hevent, (bounds_of_mem_runsOf hmem).1, fun b hb => Channel.getLsbD_sharedBits hb⟩
  · obtain ⟨run, hmem, hvalue, hat, hevent⟩ := hrun j (hj.trans_le hle)
    refine ⟨_, (groupOf run).select.1, (groupOf run).cost, hevent.trans (by rw [hvalue]), ?_, ?_,
      ?_⟩
    · rw [getElem?_of_isPrefix hgroups hj, List.getElem?_map, hat]
      rfl
    · have hshared := shared_iff_isZero hmem
      rw [hvalue] at hshared ⊢
      rw [hshared, Group.select_eq_one_iff]
    · rw [Group.select_eq_one_iff, Group.cost_eq_zero_iff]

end Entry

namespace Predictor
variable {n : Nat} {block : List UInt8}

def valueBefore (p : Predictor) (block : List UInt8) (k j : Nat) : UInt8 :=
  if j = 0 then p.bytes.getD k 0 else Record.byteAt p.size block (16 * j - 1) k

def groupValues (p : Predictor) (block : List UInt8) (k j : Nat) : List UInt8 :=
  ((Record.bytesColumn p.size (block.length / p.size) block k).drop (16 * j)).take 16

theorem byteAt_of_length (p : Predictor) (hlen : block.length = n * p.size) (k : Fin p.size)
    (i : Nat) : Record.byteAt p.size block i k =
      (Record.column k (Record.split p.size n block)).getD i 0 := by
  by_cases hi : i < n
  · exact (Record.getD_column_split k hi).symm
  · have hle := Nat.mul_le_mul_right p.size (Nat.le_of_not_lt hi)
    rw [List.getD_eq_default _ _ (by simpa using Nat.le_of_not_lt hi), Record.byteAt,
      List.getD_eq_default _ _ (by omega)]

def heardWithin (p : Predictor) (n : Nat) (block : List UInt8) (room : Nat) : List Event :=
  events (done room (Block.marks p.record (Record.split p.size n block)))

theorem consistent_heardWithin (p : Predictor) (hlen : block.length = n * p.size) (room : Nat)
    (k : Fin p.size) :
    Consistent k (p.valueBefore block k) (p.groupValues block k)
      (Account.about k (p.heardWithin n block room)) := by
  have hfront : Account.about k (p.heardWithin n block room) <+: Entry.events k
      (Entry.ofColumn (p.record.get k) (Record.column k (Record.split p.size n block))) := by
    have habout := (events_isPrefix (done_isPrefix room
      (Block.marks p.record (Record.split p.size n block)))).filter (·.channel? = some k.val)
    rwa [DeltaStream.events_blockMarks, ← Account.about, ← Account.about,
      Entry.about_blockEvents] at habout
  have hn : block.length / p.size = n := Nat.div_eq_of_eq_mul_left p.size_pos hlen
  have hconsistent := Entry.consistent_of_isPrefix hfront
  have hbefore : p.valueBefore block k = fun j => if j = 0 then p.record.get k else
      (Record.column k (Record.split p.size n block)).getD (16 * j - 1) 0 := by
    funext j
    rw [valueBefore, p.getD_bytes, byteAt_of_length p hlen]
  have hvalues : p.groupValues block k = fun j =>
      ((Record.column k (Record.split p.size n block)).drop (16 * j)).take 16 := by
    funext j
    rw [groupValues, hn, Record.column_split]
  rwa [hbefore, hvalues]

theorem observed_encodeBlock {σ : Type} (p : Predictor) (obs : Observer σ)
    (henabled : ∀ observed, obs.isEnabled observed = true)
    (hcount : Block.count block.length p.size = .ok n) (s : Session σ) :
    (∀ q s', p.encodeBlock obs block s = .ok q s' →
      p.heardWithin n block s.writer.remaining =
        events (Block.marks p.record (Record.split p.size n block)) ∧
      s'.observed = (p.heardWithin n block s.writer.remaining).foldl obs.record s.observed) ∧
    ∀ e s', p.encodeBlock obs block s = .error e s' →
      s'.observed = (p.heardWithin n block s.writer.remaining).foldl obs.record s.observed := by
  have hfollows := DeltaStream.Block.encode_follows obs p.record (Record.split p.size n block) s
  rw [(Coding.encodeBlock_of_count_ok obs s hcount).1, heardWithin]
  cases hroom : refusal s.writer.remaining (Block.marks p.record (Record.split p.size n block)) with
  | none =>
    obtain ⟨t, ht, -, -, hobserved⟩ := hfollows.ok hroom
    rw [bind_of_ok ht, done_of_none hroom]
    constructor
    · rintro q s' ⟨⟩
      exact ⟨rfl, hobserved.trans (listen_eq_foldl henabled _ _)⟩
    · rintro e s' ⟨⟩
  | some e =>
    obtain ⟨t, ht, hobserved⟩ := hfollows.refused e.1 e.2 hroom
    rw [bind_of_error ht]
    constructor
    · rintro q s' ⟨⟩
    · rintro e s' ⟨⟩
      exact hobserved.trans (listen_eq_foldl henabled _ _)

/-- What everyone who wants everything hears of a block when room for so many bytes is left: all
of it if the block is written, and the beginning if the room runs out. -/
structure HeardAs (p : Predictor) (block : List UInt8) (room : Nat) (es : List Event) : Prop where
  consistent : ∀ k < p.size,
    Consistent k (p.valueBefore block k) (p.groupValues block k) (Account.about k es)
  ok : ∀ (σ : Type) (obs : Observer σ), (∀ observed, obs.isEnabled observed = true) →
    ∀ (s s' : Session σ) (q : Predictor), s.writer.remaining = room →
      p.encodeBlock obs block s = .ok q s' →
      s'.observed = es.foldl obs.record s.observed ∧
      ∀ k < p.size,
        ((Account.about k es).filter Event.isConsistency).length =
          Layout.groupCount (block.length / p.size) ∧
        ((Account.about k es).filter Event.isGroup).length =
          Layout.groupCount (block.length / p.size)
  error : ∀ (σ : Type) (obs : Observer σ), (∀ observed, obs.isEnabled observed = true) →
    ∀ (s s' : Session σ) (e : StreamError), s.writer.remaining = room →
      p.encodeBlock obs block s = .error e s' → s'.observed = es.foldl obs.record s.observed

theorem exists_heardAs (p : Predictor) (block : List UInt8) (room : Nat) :
    ∃ es, p.HeardAs block room es := by
  cases hcount : Block.count block.length p.size with
  | error e =>
    -- A block of a wrong length is refused before anything is told of it.
    have hrun {σ : Type} (obs : Observer σ) (s : Session σ) :
        p.encodeBlock obs block s = .error e s := (Coding.encodeBlock_of_count_error s hcount).1
    refine ⟨[], fun k _ => Consistent.nil k _ _, fun σ obs _ s s' q _ hs => ?_,
      fun σ obs _ s s' e _ hs => ?_⟩
    · cases (hrun obs s).symm.trans hs
    · cases (hrun obs s).symm.trans hs
      rfl
  | ok n =>
    obtain ⟨-, -, hlen⟩ := Block.of_count_eq_ok hcount
    have hn : block.length / p.size = n := Nat.div_eq_of_eq_mul_left p.size_pos hlen
    refine ⟨p.heardWithin n block room, fun k hk => p.consistent_heardWithin hlen room ⟨k, hk⟩,
      fun σ obs henabled s s' q hroom hs => ?_, fun σ obs henabled s s' e hroom hs => ?_⟩
    · subst hroom
      obtain ⟨hall, hobserved⟩ := (p.observed_encodeBlock obs henabled hcount s).1 q s' hs
      refine ⟨hobserved, fun k hk => ?_⟩
      have habout := Entry.about_blockEvents (fun k : Fin p.size => Entry.ofColumn (p.record.get k)
        (Record.column k (Record.split p.size n block))) ⟨k, hk⟩
      have hcovers := Entry.ofColumn_covers (p.record.get ⟨k, hk⟩)
        (Record.column ⟨k, hk⟩ (Record.split p.size n block))
      rw [Record.column_length, Record.split_length] at hcovers
      rw [hall, DeltaStream.events_blockMarks, habout, Entry.filter_isConsistency,
        Entry.filter_isGroup, List.length_map, List.length_map, hn]
      exact ⟨hcovers.runs_length, hcovers.groups_length⟩
    · subst hroom
      exact (p.observed_encodeBlock obs henabled hcount s).2 e s' hs

end Predictor

namespace ChannelAccount

theorem SameGroups.payload_eq {c c' : ChannelAccount} (h : c.SameGroups c') :
    c.countedBytes - c.header = c'.countedBytes - c'.header := by
  rw [countedBytes, countedBytes, Nat.add_sub_cancel_left, Nat.add_sub_cancel_left, h.groupBytes]

end ChannelAccount

theorem sum_ite_eq_iff {α : Type} {p : α → Prop} [DecidablePred p] {f : α → Nat} {l : List α}
    (hpos : ∀ a ∈ l, 0 < f a) :
    (l.map fun a => if p a then f a else 0).sum = (l.map f).sum ↔ ∀ a ∈ l, p a := by
  have hle (l : List α) : (l.map fun a => if p a then f a else 0).sum ≤ (l.map f).sum := by
    refine List.sum_le_sum fun a _ => ?_
    split
    · exact Nat.le_refl _
    · exact Nat.zero_le _
  induction l with
  | nil => simp
  | cons a l ih =>
    obtain ⟨ha, hl⟩ := List.forall_mem_cons.1 hpos
    have hrest := hle l
    have hiff := ih hl
    rw [List.map_cons, List.map_cons, List.sum_cons, List.sum_cons, List.forall_mem_cons]
    by_cases hp : p a
    · rw [if_pos hp, Nat.add_left_cancel_iff]
      exact hiff.trans (and_iff_right hp).symm
    · rw [if_neg hp]
      constructor
      · intro hsum
        omega
      · intro hall
        exact absurd hall.1 hp

namespace Entry

theorem sum_groups_eq_zero_iff (p : UInt8) (column : List UInt8) :
    ((ofColumn p column).groups.map (·.2)).sum = 0 ↔ ∀ b < 8, ((ofColumn p column).runs.map
      fun run => if run.1.toBitVec.getLsbD b then run.2 else 0).sum = column.length := by
  have hvalues := (ofColumn_covers p column).values
  have hshared (b : Nat) : ((runsOf p column).map fun run =>
      if (Channel.sharedBits run.1 run.2).toBitVec.getLsbD b then run.2.length else 0).sum =
        column.length ↔
      ∀ run ∈ runsOf p column, (Channel.sharedBits run.1 run.2).toBitVec.getLsbD b = true := by
    rw [runs_eq_map, List.map_map] at hvalues
    rw [← hvalues]
    exact sum_ite_eq_iff fun run hrun => List.length_pos_iff.2 (bounds_of_mem_runsOf hrun).1
  simp only [groups_eq_map, runs_eq_map, List.map_map, List.sum_eq_zero_iff, List.forall_mem_map,
    Function.comp_def, hshared]
  constructor
  · intro hzero b hb run hrun
    have hall := (shared_iff_isZero hrun).2 ((Group.cost_eq_zero_iff _).1 (hzero run hrun))
    exact eq_ones_iff.1 hall b hb
  · intro hbits run hrun
    have hall := eq_ones_iff.2 fun b hb => hbits b hb run hrun
    exact (Group.cost_eq_zero_iff _).2 ((shared_iff_isZero hrun).1 hall)

end Entry

theorem ChannelAccount.payload_after_eq_zero_iff (k : Nat) (p : UInt8) (column : List UInt8) :
    (empty.after ((Entry.ofColumn p column).events k)).countedBytes -
        (empty.after ((Entry.ofColumn p column).events k)).header = 0 ↔
      ∀ b : Fin 8, (empty.after ((Entry.ofColumn p column).events k)).sharedBits.get b =
        column.length := by
  have hadds := empty.adds_after ((Entry.ofColumn p column).events k)
  have hcounted := hadds.countedBytes
  have hheaded := hadds.header
  rw [(Entry.sum_balance k _).1, Entry.bytes] at hcounted
  simp only [Entry.sum_events, Event.headed, List.sum_map_zero, Nat.zero_add, Nat.add_zero]
    at hheaded
  have hpayload : (empty.after ((Entry.ofColumn p column).events k)).countedBytes -
      (empty.after ((Entry.ofColumn p column).events k)).header =
        ((Entry.ofColumn p column).groups.map (·.2)).sum := by
    have hempty : empty.countedBytes = 0 ∧ empty.header = 0 := ⟨rfl, rfl⟩
    omega
  have hshared (b : Fin 8) : (empty.after ((Entry.ofColumn p column).events k)).sharedBits.get b =
      ((Entry.ofColumn p column).runs.map
        fun run => if run.1.toBitVec.getLsbD b then run.2 else 0).sum := by
    have hempty : ∀ b, empty.sharedBits.get b = 0 := by decide
    simp [hadds.sharedBits, Entry.sum_events, Event.sharing, hempty]
  simp only [hpayload, hshared, Entry.sum_groups_eq_zero_iff, Fin.forall_iff]

namespace DeltaStream
open Account
variable {version : UInt8} {count size m len : Nat} {source destination : List UInt8}
  {s : Session Account}

/-- After a complete stream a channel has no payload exactly if all its values share all bits with
the values before their groups. -/
theorem payload_eq_zero_iff_of_ok
    (h : encode observer version count size source (.start destination (empty m)) = .ok len s)
    {k : Nat} (hk : k < size) : (s.observed.channel k).countedBytes -
        (s.observed.channel k).header = 0 ↔
      ∀ b : Fin 8, (s.observed.channel k).sharedBits.get b = count := by
  obtain ⟨size, rfl⟩ := (of_encode_eq_ok _ _ h).1.validSize.exists_size
  have hsame := sameGroups_of_ok h ⟨k, hk⟩
  rw [hsame.payload_eq, hsame.sharedBits, ChannelAccount.payload_after_eq_zero_iff,
    Record.column_length, Record.split_length]

/-- What is told of the bits that values share agrees with what is told of the groups. An observer
that wants everything hears, of every channel of a block, first the bits that the values of each
group share with the value before it and then the groups; all eight are shared exactly where the
group takes no bytes. So after a complete stream of some records, an account that began empty has no
payload for a channel exactly if it counted every record for all eight bits. -/
theorem consistency_agrees :
    (∀ (p : Predictor) (block : List UInt8) (room : Nat), ∃ es, p.HeardAs block room es) ∧
    ∀ (version : UInt8) (count size m len : Nat) (source destination : List UInt8)
      (s : Session Account), 0 < count →
      encode observer version count size source (.start destination (empty m)) = .ok len s →
      ∀ k < size, ∃ c, s.observed.channels[k]? = some c ∧
        (c.countedBytes - c.header = 0 ↔ ∀ b : Fin 8, c.sharedBits.get b = count) := by
  refine ⟨fun p block room => p.exists_heardAs block room,
    fun version count size m len source destination s hcount h k hk => ?_⟩
  have hlength : k < s.observed.channels.length := by
    rw [(account_of_ok h).channels, if_pos hcount]
    exact Nat.lt_of_lt_of_le hk (Nat.le_max_right m size)
  have hchannel : s.observed.channel k = s.observed.channels[k] :=
    List.getD_eq_getElem _ _ hlength
  refine ⟨s.observed.channels[k], List.getElem?_eq_getElem hlength, ?_⟩
  rw [← hchannel]
  exact payload_eq_zero_iff_of_ok h hk

theorem consistency_agrees_two_records :
    (∃ es, Predictor.HeardAs ⟨1, #v[5], by decide, by decide⟩ [5, 6] 100 es) ∧
    ∃ s c, encode observer 1 2 4 [9, 8, 7, 6, 9, 8, 7, 5]
        (.start (List.replicate 60 0) (empty 4)) = .ok 41 s ∧
      s.observed.channels[3]? = some c ∧
      (c.countedBytes - c.header = 0 ↔ ∀ b : Fin 8, c.sharedBits.get b = 2) := by
  have hadmissible : Admissible 1 2 4 [9, 8, 7, 6, 9, 8, 7, 5] :=
    ⟨by decide, by decide, by decide, by decide⟩
  have hlen : streamLength 2 4 [9, 8, 7, 6, 9, 8, 7, 5] = 41 := by decide
  have hle : streamLength 2 4 [9, 8, 7, 6, 9, 8, 7, 5] ≤
      (List.replicate 60 (0 : UInt8)).length := by decide
  obtain ⟨s, hs, _⟩ := encode_of_le observer (empty 4) hadmissible hle
  rw [hlen] at hs
  obtain ⟨hblock, hstream⟩ := consistency_agrees
  obtain ⟨c, hc, hpayload⟩ := hstream 1 2 4 4 41 _ _ s (by decide) hs 3 (by decide)
  exact ⟨hblock _ _ _, s, c, hs, hc, hpayload⟩

end DeltaStream
end VertexPack
