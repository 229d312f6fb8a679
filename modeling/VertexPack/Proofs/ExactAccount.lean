import VertexPack.Proofs.Balance

/-! What an account that begins empty holds when encoding ends: of a complete stream, all of it;
of one that ran out of room, what fitted. -/
namespace VertexPack

namespace Account

/-- An account with all of a stream of `len` bytes; it was begun for `m` channels. -/
structure Complete (a : Account) (m count size len : Nat) : Prop where
  vertexCount : a.vertexCount = count
  totalSize : a.totalSize = len
  blockBytes : 1 + Layout.tailSize size + a.blockBytes = len
  exact : ∀ k < size, (a.channel k).Exact count size
  unused : ∀ k, size ≤ k → a.channel k = .empty
  channels : a.channels.length = if 0 < count then max m size else m

/-- An account of a stream that ran out of room: no channel but `j` has bytes that were not yet
counted by positions. -/
structure Interrupted (a : Account) (capacity : Nat) : Prop where
  vertexCount : a.vertexCount = 0
  totalSize : a.totalSize = 0
  pending : ∃ j bytes,
    (∀ k, (a.channel k).countedBytes = (a.channel k).size + if k = j then bytes else 0) ∧
      a.blockBytes + bytes ≤ capacity

theorem observer_foldl (a : Account) (ms : List Mark) :
    Transcript.listen observer a ms = (Transcript.events ms).foldl record a :=
  Transcript.listen_eq_foldl (fun _ => rfl) a ms

theorem channels_ofBlocks_counts {size : VertexSize} {m count : Nat}
    {blocks : List (Fin size.val → Entry)}
    (hcover : List.Forall₂ (fun entries n => ∀ k, (entries k).Covers n) blocks
      (DeltaStream.blockCounts count size.val)) :
    (ofBlocks m blocks).channels.length = if 0 < count then max m size.val else m := by
  have hB := Layout.blockLength_pos size
  have hlength := hcover.length_eq
  rw [DeltaStream.blockCounts, List.length_map, List.length_range] at hlength
  by_cases hcount : 0 < count
  · rw [if_pos hcount]
    refine channels_ofBlocks blocks size.pos ?_
    rintro rfl
    rw [ceilDiv_eq_succ hB hcount] at hlength
    cases hlength
  · obtain rfl : count = 0 := by omega
    rw [if_neg hcount]
    rw [ceilDiv_zero hB, List.length_eq_zero_iff] at hlength
    rw [hlength]
    exact List.length_replicate

end Account

namespace DeltaStream
open Transcript Account
variable {version : UInt8} {count size m : Nat} {source destination : List UInt8}

theorem account_of_ok {len : Nat} {s : Session Account}
    (h : encode observer version count size source (.start destination (empty m)) = .ok len s) :
    s.observed.Complete m count size len := by
  obtain ⟨size, rfl⟩ := (of_encode_eq_ok _ _ h).1.validSize.exists_size
  obtain ⟨format, hlen, hobserved⟩ := encode_ok_transcript _ _ h
  have hcover := entries_cover format size count source
  rw [observer_foldl, events_jobMarks] at hobserved
  rw [hobserved]
  constructor
  · rfl
  · rfl
  · rw [hlen, jobBytes_length, ← blockBytes_ofBlocks (m := m)]
    rfl
  · intro k hk
    have hexact := Entry.exact_after k (Entry.covers_ofChannel hcover ⟨k, hk⟩)
    rw [← channel_ofBlocks (m := m) _ ⟨k, hk⟩] at hexact
    exact hexact
  · intro k hk
    exact channel_ofBlocks_of_le _ hk
  · exact channels_ofBlocks_counts hcover

theorem interrupted_foldl (job : Job) (room : Nat) :
    ((events (done room job.marks)).foldl record (empty m)).Interrupted room := by
  have hfront := done_isPrefix room job.marks
  have hchannels (e : Event) (he : e ∈ events (done room job.marks)) : e.channel? ≠ none := by
    have hmem := (events_isPrefix hfront).subset he
    rw [events_jobMarks] at hmem
    obtain ⟨k, hk⟩ := channel_of_mem_blocks _ hmem
    rw [hk]
    exact Option.some_ne_none k.val
  obtain ⟨hcount, htotal⟩ := foldl_of_channels (a := empty m) hchannels
  obtain ⟨j, bytes, hbalance, hbound⟩ := (Accountable.jobMarks job).pending _ hfront
  refine ⟨hcount, htotal, j, bytes, fun k => ?_, ?_⟩
  · have hadds := ChannelAccount.empty.adds_after (about k (events (done room job.marks)))
    rw [channel_foldl, channel_empty, hadds.countedBytes, hadds.size]
    have hk := hbalance k
    rw [counted, sized] at hk
    rw [hk]
    exact (Nat.add_assoc _ _ _).symm
  · rw [blockBytes_foldl, blockBytes_empty, Nat.zero_add]
    exact Nat.le_trans hbound (width_done_le room job.marks)

theorem account_of_error {needed available : Nat} {s : Session Account}
    (h : encode observer version count size source (.start destination (empty m)) =
      .error (.outputTooSmall needed available) s) :
    s.observed.Interrupted destination.length := by
  have hend := encode_ending observer (empty m) version count size source destination
  rw [h] at hend
  cases hend with
  | outputTooSmall _ _ _ hadmissible _ _ =>
    obtain ⟨job, hjob, _⟩ := prepare_of_admissible hadmissible
    rw [encode_of_prepare_ok hjob] at h
    cases hroom : refusal destination.length job.marks with
    | none =>
      obtain ⟨_, hs, _⟩ := job.encode_of_none observer (empty m) hroom
      rw [hs] at h
      cases h
    | some e =>
      obtain ⟨_, hs, hobserved⟩ := job.encode_of_some observer (empty m) hroom
      rw [hs] at h
      cases h
      rw [hobserved, observer_foldl]
      exact interrupted_foldl job destination.length

/-- An account that begins empty is exact: after a complete stream it has all of it, and where
the room ran out it has what was written of every channel, but for one that was being written. -/
theorem account_exact (version : UInt8) (count size m : Nat) (source destination : List UInt8) :
    (∀ (len : Nat) (s : Session Account),
      encode observer version count size source (.start destination (empty m)) = .ok len s →
      s.observed.Complete m count size len) ∧
    ∀ (needed available : Nat) (s : Session Account),
      encode observer version count size source (.start destination (empty m)) =
        .error (.outputTooSmall needed available) s →
      s.observed.Interrupted destination.length :=
  ⟨fun _ _ h => account_of_ok h, fun _ _ _ h => account_of_error h⟩

theorem account_exact_one_record :
    (∃ s, encode observer 1 1 4 [1, 2, 3, 4] (.start (List.replicate 37 0) (empty 6)) = .ok 37 s ∧
      s.observed.Complete 6 1 4 37) ∧
    ∃ needed available s,
      encode observer 1 1 4 [1, 2, 3, 4] (.start (List.replicate 36 0) (empty 6)) =
        .error (.outputTooSmall needed available) s ∧ s.observed.Interrupted 36 := by
  have hadmissible : Admissible 1 1 4 [1, 2, 3, 4] :=
    ⟨by decide, by decide, by decide, by decide⟩
  have hlen : streamLength 1 4 [1, 2, 3, 4] = 37 := by decide
  have hfits : streamLength 1 4 [1, 2, 3, 4] ≤ (List.replicate 37 (0 : UInt8)).length := by decide
  have hfull : (List.replicate 36 (0 : UInt8)).length < streamLength 1 4 [1, 2, 3, 4] := by decide
  obtain ⟨s, hdone, _⟩ := encode_of_le observer (empty 6) hadmissible hfits
  obtain ⟨needed, available, s', hfail, _⟩ := encode_of_lt observer (empty 6) hadmissible hfull
  rw [hlen] at hdone
  refine ⟨⟨s, hdone, ?_⟩, needed, available, s', hfail, ?_⟩
  · exact (account_exact 1 1 4 6 [1, 2, 3, 4] (List.replicate 37 0)).1 37 s hdone
  · exact (account_exact 1 1 4 6 [1, 2, 3, 4] (List.replicate 36 0)).2 needed available s' hfail

end DeltaStream
end VertexPack
