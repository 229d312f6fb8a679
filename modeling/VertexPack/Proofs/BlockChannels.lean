import VertexPack.Proofs.Accounting
import VertexPack.Proofs.BlockRoundTrip
import VertexPack.Proofs.SharedBuffers

/-! A block is its channels, one after the other, and each of them depends on its own bytes alone:
on what the records have at one offset, and on what the predictor has there. The same is true of
what is heard about a channel. -/
namespace VertexPack
open Transcript

def Observer.only {σ : Type} (k : Nat) (obs : Observer σ) : Observer σ where
  isEnabled := obs.isEnabled
  record observed e := if e.channel? = some k then obs.record observed e else observed

namespace Transcript
variable {σ : Type} {k : Nat} {obs : Observer σ} {ms : List Mark}

theorem foldl_only_of_ne {es : List Event} (h : ∀ e ∈ es, e.channel? ≠ some k) (observed : σ) :
    es.foldl (obs.only k).record observed = observed := by
  induction es with
  | nil => rfl
  | cons e es ih =>
    obtain ⟨he, hes⟩ := List.forall_mem_cons.1 h
    exact (congrArg (es.foldl _) (if_neg he)).trans (ih hes)

theorem listen_only_of_ne (h : ∀ e ∈ events ms, e.channel? ≠ some k) (observed : σ) :
    listen (obs.only k) observed ms = observed := by
  induction ms with
  | nil => rfl
  | cons m ms ih =>
    rw [events_cons] at h
    obtain ⟨hm, hms⟩ := List.forall_mem_append.1 h
    have hhear : m.hear (obs.only k) observed = observed := by
      cases m with
      | demand _ | advance _ => rfl
      | report e => exact if_neg (hm e (List.mem_singleton_self e))
      | offer es =>
        have hes : es.foldl (obs.only k).record observed = observed := foldl_only_of_ne hm observed
        rw [Mark.hear, hes, ite_self]
    rw [listen, List.foldl_cons, hhear]
    exact ih hms

theorem listen_only_flatMap {ι : Type} {l : List ι} {i : ι} (hl : l.Nodup) (hi : i ∈ l)
    {f : ι → List Mark} (h : ∀ j, j ≠ i → ∀ e ∈ events (f j), e.channel? ≠ some k)
    (observed : σ) :
    listen (obs.only k) observed (l.flatMap f) = listen (obs.only k) observed (f i) := by
  obtain ⟨front, back, rfl⟩ := List.append_of_mem hi
  have hquiet (part : List ι) (hpart : i ∉ part) (observed : σ) :
      listen (obs.only k) observed (part.flatMap f) = observed := by
    refine listen_only_of_ne (fun e he => ?_) observed
    rw [events, List.flatMap_assoc, List.mem_flatMap] at he
    obtain ⟨j, hj, he⟩ := he
    exact h j (fun hji => hpart (hji ▸ hj)) e he
  obtain ⟨hfront, hback⟩ : i ∉ front ∧ i ∉ back := by
    have hnodup := List.nodup_middle.1 hl
    rw [List.nodup_cons, List.mem_append, not_or] at hnodup
    exact hnodup.1
  rw [List.flatMap_append, List.flatMap_cons, listen_append, listen_append, hquiet front hfront,
    hquiet back hback]

end Transcript

theorem Block.listen_only_marks {σ : Type} {size : Nat} (obs : Observer σ) (p : Record size)
    (records : List (Record size)) (k : Fin size) (observed : σ) :
    listen (obs.only k) observed (marks p records) =
      listen (obs.only k) observed (Channel.marks k (p.get k) (Record.column k records)) := by
  refine listen_only_flatMap (List.nodup_finRange size) (List.mem_finRange k)
    (fun j hj e he hchannel => ?_) observed
  rw [Entry.events_marks] at he
  rw [Entry.channel_of_mem he] at hchannel
  exact hj (Fin.val_inj.1 (Option.some.inj hchannel))

namespace Predictor
variable {σ : Type} {n k : Nat} {block : List UInt8}

/-- The folded step to record `i` of a block of `n` records, at offset `k`; the first one is from
the predictor, and there is none behind the last record. -/
def deltaAt (p : Predictor) (n : Nat) (block : List UInt8) (k i : Nat) : UInt8 :=
  if i < n then
    Delta.zigzag (Record.byteAt p.size block i k -
      if i = 0 then p.bytes.getD k 0 else Record.byteAt p.size block (i - 1) k)
  else 0

def groupsAt (p : Predictor) (n : Nat) (block : List UInt8) (k : Nat) : List Group :=
  (List.range (Layout.groupCount n)).map fun j =>
    Vector.ofFn fun i : Fin 16 => p.deltaAt n block k (16 * j + i)

theorem getD_encode_column (p : Predictor) (n : Nat) (block : List UInt8) (k : Fin p.size)
    (i : Nat) : (Delta.encode (p.record.get k)
      (Record.column k (Record.split p.size n block))).getD i 0 = p.deltaAt n block k i := by
  rw [deltaAt, Record.getD_encode_column_split, p.getD_bytes]

theorem split_encode_column (p : Predictor) (n : Nat) (block : List UInt8) (k : Fin p.size) :
    Group.split (Delta.encode (p.record.get k) (Record.column k (Record.split p.size n block))) =
      p.groupsAt n block k := by
  rw [Group.split_eq_map, Delta.encode_length, Record.column_length, Record.split_length]
  simp only [getD_encode_column, groupsAt]

theorem blockBytes_eq (p : Predictor) (n : Nat) (block : List UInt8) :
    Block.bytes p.record (Record.split p.size n block) =
      (List.range p.size).flatMap fun k => Channel.bytes (p.groupsAt n block k) := by
  rw [Block.bytes, ← List.map_coe_finRange_eq_range, List.flatMap_map]
  simp only [Channel.columnBytes, split_encode_column]

/-- A block that was written has been written and heard channel by channel. -/
theorem written_and_heard {p q : Predictor} {obs : Observer σ} {s s' : Session σ}
    (hpos : 0 < n) (hmax : n ≤ Layout.maxBlockLength) (hlen : block.length = n * p.size)
    (h : p.encodeBlock obs block s = .ok q s') :
    s'.writer = s.writer.push (Block.bytes p.record (Record.split p.size n block)) ∧
      s'.observed = listen obs s.observed (Block.marks p.record (Record.split p.size n block)) := by
  have hcount := Block.count_mul p.size_pos hpos hmax
  rw [← hlen] at hcount
  rw [(Coding.encodeBlock_of_count_ok obs s hcount).1] at h
  obtain ⟨room, happends⟩ :=
    DeltaStream.Block.encode_appends obs p.record (Record.split p.size n block)
  refine ⟨(happends.of_bind_pure_eq_ok h).2, ?_⟩
  obtain ⟨_, _, hstep, hpure⟩ := bind_eq_ok_iff.1 h
  cases hpure
  exact (DeltaStream.Block.encode_follows obs p.record _).observed_of_ok hstep

/-- Two blocks of `n` records that have the same bytes at offset `k`, as have their predictors. -/
structure Agree (n k : Nat) (p : Predictor) (block : List UInt8) (p' : Predictor)
    (block' : List UInt8) : Prop where
  lt : k < p.size
  lt' : k < p'.size
  first : p.bytes.getD k 0 = p'.bytes.getD k 0
  bytes : ∀ i < n, Record.byteAt p.size block i k = Record.byteAt p'.size block' i k

/-- What an observer that wants everything hears of a block. -/
def Heard (p : Predictor) (block : List UInt8) (es : List Event) : Prop :=
  ∀ (σ : Type) (obs : Observer σ), (∀ observed, obs.isEnabled observed = true) →
    ∀ (s s' : Session σ) (q : Predictor), p.encodeBlock obs block s = .ok q s' →
      s'.observed = es.foldl obs.record s.observed

section Agree
variable {p p' : Predictor} {block' : List UInt8}

theorem Agree.groupsAt_eq (h : Agree n k p block p' block') :
    p.groupsAt n block k = p'.groupsAt n block' k := by
  have hdelta (i : Nat) : p.deltaAt n block k i = p'.deltaAt n block' k i := by
    rw [deltaAt, deltaAt]
    by_cases hi : i < n
    · rw [if_pos hi, if_pos hi, h.bytes i hi, h.first, h.bytes (i - 1) (by omega)]
    · rw [if_neg hi, if_neg hi]
  rw [Predictor.groupsAt, Predictor.groupsAt]
  simp only [hdelta]

theorem Agree.column_eq (h : Agree n k p block p' block') :
    p.record.get ⟨k, h.lt⟩ = p'.record.get ⟨k, h.lt'⟩ ∧
      Record.column ⟨k, h.lt⟩ (Record.split p.size n block) =
        Record.column ⟨k, h.lt'⟩ (Record.split p'.size n block') := by
  constructor
  · rw [← p.getD_bytes, ← p'.getD_bytes]
    exact h.first
  · rw [Record.column_split, Record.column_split]
    exact List.map_congr_left fun i hi => h.bytes i (List.mem_range.1 hi)

theorem heard_blockEvents (hpos : 0 < n) (hmax : n ≤ Layout.maxBlockLength)
    (hlen : block.length = n * p.size) :
    Heard p block (events (Block.marks p.record (Record.split p.size n block))) := by
  intro σ obs henabled s s' q h
  rw [(written_and_heard hpos hmax hlen h).2, listen_eq_foldl henabled]

theorem Agree.about_eq (h : Agree n k p block p' block') :
    Account.about k (events (Block.marks p.record (Record.split p.size n block))) =
      Account.about k (events (Block.marks p'.record (Record.split p'.size n block'))) := by
  obtain ⟨hfirst, hcolumn⟩ := h.column_eq
  have habout (p : Predictor) (block : List UInt8) (k : Fin p.size) := Entry.about_blockEvents
    (fun j => Entry.ofColumn (p.record.get j) (Record.column j (Record.split p.size n block))) k
  have hleft := habout p block ⟨k, h.lt⟩
  rw [hfirst, hcolumn] at hleft
  rw [DeltaStream.events_blockMarks, DeltaStream.events_blockMarks]
  exact hleft.trans (habout p' block' ⟨k, h.lt'⟩).symm

theorem Agree.observed_eq (h : Agree n k p block p' block') (hpos : 0 < n)
    (hmax : n ≤ Layout.maxBlockLength) (hlen : block.length = n * p.size)
    (hlen' : block'.length = n * p'.size) {obs : Observer σ} {s s₁ t t₁ : Session σ}
    {q q₁ : Predictor} (hstart : s.observed = s₁.observed)
    (hrun : p.encodeBlock (obs.only k) block s = .ok q t)
    (hrun' : p'.encodeBlock (obs.only k) block' s₁ = .ok q₁ t₁) : t.observed = t₁.observed := by
  obtain ⟨hfirst, hcolumn⟩ := h.column_eq
  have honly := Block.listen_only_marks obs p.record (Record.split p.size n block) ⟨k, h.lt⟩
    s.observed
  have honly' := Block.listen_only_marks obs p'.record (Record.split p'.size n block') ⟨k, h.lt'⟩
    s₁.observed
  rw [(written_and_heard hpos hmax hlen hrun).2, (written_and_heard hpos hmax hlen' hrun').2,
    hstart]
  rw [hfirst, hcolumn, hstart] at honly
  exact honly.trans honly'.symm

end Agree

/-- A block of `n` records is written channel by channel, each as the groups of its folded steps are
written, also where the channels share buffers that are never cleared. Blocks that agree on a
channel have the same bytes there, and the same is heard about it; an observer of that channel
alone ends up in the same state. -/
theorem encodeBlock_channels (hpos : 0 < n) (hmax : n ≤ 256) (p : Predictor)
    (hlen : block.length = n * p.size) :
    (∀ k, ∃ room, ∀ (σ : Type) (obs : Observer σ) (channel : Nat),
      Appends room (Channel.bytes (p.groupsAt n block k))
        (Channel.encodeGroups obs channel (p.groupsAt n block k))) ∧
    (∀ (σ : Type) (obs : Observer σ), (∃ room, ∀ s : Session σ, room ≤ s.writer.remaining →
        ∃ q s', p.encodeBlock obs block s = .ok q s') ∧
      ∀ (s s' : Session σ) (q : Predictor), p.encodeBlock obs block s = .ok q s' →
        s'.writer = s.writer.push
          ((List.range p.size).flatMap fun k => Channel.bytes (p.groupsAt n block k))) ∧
    (∀ (σ : Type) (obs : Observer σ), p.encodeBlockShared obs block = p.encodeBlock obs block) ∧
    ∀ (p' : Predictor) (block' : List UInt8) (k : Nat), block'.length = n * p'.size →
      Agree n k p block p' block' →
      Channel.bytes (p.groupsAt n block k) = Channel.bytes (p'.groupsAt n block' k) ∧
      (∃ es es', Heard p block es ∧ Heard p' block' es' ∧
        Account.about k es = Account.about k es') ∧
      ∀ (σ : Type) (obs : Observer σ) (s s₁ t t₁ : Session σ) (q q₁ : Predictor),
        s.observed = s₁.observed →
        p.encodeBlock (obs.only k) block s = .ok q t →
        p'.encodeBlock (obs.only k) block' s₁ = .ok q₁ t₁ → t.observed = t₁.observed := by
  refine ⟨fun k => ⟨_, fun σ obs channel => Channel.encodeGroups_appends obs channel _⟩,
    fun σ obs => ⟨encodeBlock_of_room obs hpos hmax hlen, fun s s' q h => ?_⟩,
    fun σ obs => p.encodeBlockShared_eq obs block,
    fun p' block' k hlen' hagree => ⟨?_, ?_, ?_⟩⟩
  · rw [(written_and_heard hpos hmax hlen h).1, blockBytes_eq]
  · rw [hagree.groupsAt_eq]
  · exact ⟨_, _, heard_blockEvents hpos hmax hlen, heard_blockEvents hpos hmax hlen',
      hagree.about_eq⟩
  · intro σ obs s s₁ t t₁ q q₁ hstart hrun hrun'
    exact hagree.observed_eq hpos hmax hlen hlen' hstart hrun hrun'

theorem encodeBlock_channels_two_sizes :
    (∀ (s s' : Session Unit) (q : Predictor),
      encodeBlock ⟨1, #v[5], by decide, by decide⟩ Observer.silent [5, 6] s = .ok q s' →
        s'.writer = s.writer.push [1, 0x20, 0, 0, 0]) ∧
    Channel.bytes (groupsAt ⟨1, #v[5], by decide, by decide⟩ 2 [5, 6] 0) =
      Channel.bytes (groupsAt ⟨2, #v[5, 9], by decide, by decide⟩ 2 [5, 1, 6, 200] 0) := by
  have hpos : 0 < 2 := by decide
  have hmax : 2 ≤ 256 := by decide
  have hlen : ([5, 6] : List UInt8).length = 2 * 1 := rfl
  obtain ⟨-, hwritten, -, hothers⟩ :=
    encodeBlock_channels hpos hmax ⟨1, #v[5], by decide, by decide⟩ hlen
  have hagree : Agree 2 0 ⟨1, #v[5], by decide, by decide⟩ [5, 6]
      ⟨2, #v[5, 9], by decide, by decide⟩ [5, 1, 6, 200] :=
    ⟨by decide, by decide, by decide, by decide⟩
  refine ⟨fun s s' q h => ?_, (hothers _ _ _ rfl hagree).1⟩
  rw [(hwritten _ _).2 s s' q h]
  exact congrArg s.writer.push (by decide)

end Predictor
end VertexPack
