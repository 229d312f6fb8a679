import VertexPack.Proofs.Entries
import VertexPack.Proofs.Outcome

/-! What an observer learns from an encoder, and that the encoder learns nothing from it. -/
namespace VertexPack.DeltaStream
open Transcript
variable {σ : Type} {version : UInt8} {count size : Nat} {source destination : List UInt8}

/-- What an encoder gives back: the length of the stream and the destination, or an error. -/
def outcome : EStateM.Result StreamError (Session σ) Nat → Except StreamError (Nat × List UInt8)
  | .ok len s => .ok (len, s.writer.destination)
  | .error e _ => .error e

def learnt : EStateM.Result StreamError (Session σ) Nat → σ
  | .ok _ s | .error _ s => s.observed

namespace Job
variable (job : Job) (obs : Observer σ) (observed : σ)

theorem bytes_length_le_of_none (h : refusal destination.length job.marks = none) :
    job.bytes.length ≤ destination.length := by
  apply Nat.le_of_not_lt
  intro hlt
  obtain ⟨s, hs, _⟩ := (job.write_follows Observer.silent (.start destination ())).ok h
  obtain ⟨_, _, _, hfull, _⟩ :=
    (job.write_appends Observer.silent).full (.start destination ()) hlt
  rw [hs] at hfull
  cases hfull

theorem encode_of_none (h : refusal destination.length job.marks = none) :
    ∃ s, job.encode obs (.start destination observed) = .ok job.bytes.length s ∧
      s.writer.destination = job.bytes ++ destination.drop job.bytes.length ∧
      s.observed = obs.record (listen obs observed job.marks)
        (.stream job.records.length job.bytes.length) := by
  have hle := job.bytes_length_le_of_none h
  obtain ⟨s, hs, _, _, hobserved⟩ := (job.write_follows obs (.start destination observed)).ok h
  obtain ⟨_, hs', hw⟩ := (job.write_appends obs).fits (.start destination observed) hle
  rw [hs] at hs'
  cases hs'
  have hposition : s.writer.position = job.bytes.length := by
    rw [hw, Writer.position_push]
    exact Nat.zero_add _
  rw [encode_eq, bind_of_ok hs, ← hposition]
  refine ⟨_, rfl, ?_, ?_⟩
  · rw [hposition]
    exact (congrArg Writer.destination hw).trans
      (Writer.destination_ofDestination_push _ _)
  · exact congrArg (obs.record · _) hobserved

theorem encode_of_some {needed available : Nat}
    (h : refusal destination.length job.marks = some (needed, available)) :
    ∃ s, job.encode obs (.start destination observed) =
        .error (.outputTooSmall needed available) s ∧
      s.observed = listen obs observed (done destination.length job.marks) := by
  obtain ⟨s, hs, hobserved⟩ :=
    (job.write_follows obs (.start destination observed)).refused needed available h
  rw [encode_eq, bind_of_error hs]
  exact ⟨s, rfl, hobserved⟩

theorem outcome_encode {τ : Type} (obs' : Observer τ) (observed' : τ) :
    outcome (job.encode obs (.start destination observed)) =
      outcome (job.encode obs' (.start destination observed')) := by
  cases h : refusal destination.length job.marks with
  | none =>
    obtain ⟨s, hs, hw, _⟩ := job.encode_of_none obs observed h
    obtain ⟨s', hs', hw', _⟩ := job.encode_of_none obs' observed' h
    rw [hs, hs', outcome, outcome, hw, hw']
  | some e =>
    obtain ⟨s, hs, _⟩ := job.encode_of_some obs observed h
    obtain ⟨s', hs', _⟩ := job.encode_of_some obs' observed' h
    rw [hs, hs', outcome, outcome]

end Job

theorem outcome_encode {τ : Type} (obs : Observer σ) (observed : σ) (obs' : Observer τ)
    (observed' : τ) :
    outcome (encode obs version count size source (.start destination observed)) =
      outcome (encode obs' version count size source (.start destination observed')) := by
  cases h : Job.prepare version count size source with
  | error e => rw [encode_of_prepare_error h, encode_of_prepare_error h, outcome, outcome]
  | ok job =>
    rw [encode_of_prepare_ok h, encode_of_prepare_ok h]
    exact job.outcome_encode obs observed obs' observed'

def logged (version : UInt8) (count size : Nat) (source destination : List UInt8) : List Event :=
  (learnt (encode Observer.log version count size source (.start destination #[]))).toList

section Log
variable {job : Job}

theorem logged_of_prepare_error {e : StreamError}
    (h : Job.prepare version count size source = .error e) :
    logged version count size source destination = [] := by
  rw [logged, encode_of_prepare_error h]
  rfl

theorem logged_of_none (h : Job.prepare version count size source = .ok job)
    (hroom : refusal destination.length job.marks = none) :
    logged version count size source destination =
      events job.marks ++ [.stream job.records.length job.bytes.length] := by
  obtain ⟨s, hs, _, hobserved⟩ := job.encode_of_none Observer.log #[] hroom
  rw [logged, encode_of_prepare_ok h, hs, learnt, hobserved]
  change (Array.push _ _).toList = _
  rw [Array.toList_push, toList_listen_log]
  rfl

theorem logged_of_some (h : Job.prepare version count size source = .ok job) {e : Nat × Nat}
    (hroom : refusal destination.length job.marks = some e) :
    logged version count size source destination = events (done destination.length job.marks) := by
  obtain ⟨s, hs, hobserved⟩ := job.encode_of_some Observer.log #[] hroom
  rw [logged, encode_of_prepare_ok h, hs, learnt, hobserved, toList_listen_log]
  rfl

/-- With more room an encoder logs what it logs with less, and then more. -/
theorem logged_isPrefix {destination' : List UInt8}
    (hle : destination.length ≤ destination'.length) :
    logged version count size source destination <+:
      logged version count size source destination' := by
  cases h : Job.prepare version count size source with
  | error e => rw [logged_of_prepare_error h, logged_of_prepare_error h]
  | ok job =>
    cases hroom : refusal destination.length job.marks with
    | none => rw [logged_of_none h hroom, logged_of_none h (refusal_none_mono hle hroom)]
    | some e =>
      rw [logged_of_some h hroom]
      cases hroom' : refusal destination'.length job.marks with
      | none =>
        rw [logged_of_none h hroom']
        exact (events_isPrefix (done_isPrefix _ _)).trans (List.prefix_append _ _)
      | some e' =>
        rw [logged_of_some h hroom']
        exact events_isPrefix (done_mono hle _)

theorem logged_length_lt {destination' : List UInt8} (obs : Observer σ) (observed : σ)
    {e : StreamError} {s s' : Session σ} {len : Nat}
    (hfail : encode obs version count size source (.start destination observed) = .error e s)
    (hdone : encode obs version count size source (.start destination' observed) = .ok len s') :
    (logged version count size source destination).length <
      (logged version count size source destination').length := by
  cases h : Job.prepare version count size source with
  | error e =>
    rw [encode_of_prepare_error h] at hdone
    cases hdone
  | ok job =>
    rw [encode_of_prepare_ok h] at hfail hdone
    cases hroom : refusal destination.length job.marks with
    | none =>
      obtain ⟨_, hs, _⟩ := job.encode_of_none obs observed hroom
      rw [hs] at hfail
      cases hfail
    | some e =>
      cases hroom' : refusal destination'.length job.marks with
      | none =>
        -- Only a run that succeeds logs the stream behind its parts.
        have hfront := (events_isPrefix (done_isPrefix destination.length job.marks)).length_le
        rw [logged_of_some h hroom, logged_of_none h hroom', List.length_append,
          List.length_singleton]
        omega
      | some e' =>
        obtain ⟨_, hs, _⟩ := job.encode_of_some obs observed hroom'
        rw [hs] at hdone
        cases hdone

end Log

theorem encode_ok_transcript (obs : Observer σ) (observed : σ) {size : VertexSize} {len : Nat}
    {s : Session σ}
    (h : encode obs version count size.val source (.start destination observed) = .ok len s) :
    ∃ format, len = (Job.ofSource format size count source).bytes.length ∧
      s.observed = obs.record (listen obs observed (Job.ofSource format size count source).marks)
        (.stream count len) := by
  obtain ⟨hadmissible, -⟩ := of_encode_eq_ok obs observed h
  have hprepare :=
    prepare_of_le hadmissible.version_le hadmissible.lt_limit hadmissible.le_length
  rw [encode_of_prepare_ok hprepare] at h
  refine ⟨⟨version, hadmissible.version_le⟩, ?_⟩
  cases hroom : refusal destination.length
      (Job.ofSource ⟨version, hadmissible.version_le⟩ size count source).marks with
  | some e =>
    obtain ⟨_, hs, _⟩ := Job.encode_of_some _ obs observed hroom
    rw [hs] at h
    cases h
  | none =>
    obtain ⟨_, hs, _, hobserved⟩ := Job.encode_of_none _ obs observed hroom
    rw [hs] at h
    cases h
    refine ⟨rfl, hobserved.trans ?_⟩
    rw [Job.ofSource, Record.split_length]

theorem entries_cover (format : FormatByte) (size : VertexSize) (count : Nat)
    (source : List UInt8) :
    List.Forall₂ (fun (entries : Fin size.val → Entry) n => ∀ k, (entries k).Covers n)
      (blockEntries (Job.ofSource format size count source).first
        (Job.ofSource format size count source).blocks) (blockCounts count size.val) := by
  have hcover := blockEntries_covers (Job.ofSource format size count source).first
    (Job.ofSource format size count source).blocks
  have hcounts := blockCounts_eq (Record.split size.val count source) size.val
  rw [Record.split_length] at hcounts
  rwa [Job.blocks, Job.ofSource, hcounts] at hcover

/-- A successful run logs an entry for each channel of each block, in order, and at last the
stream, whose length is that of all its parts. -/
theorem logged_entries {len : Nat} {s : Session (Array Event)}
    (h : encode Observer.log version count size source (.start destination #[]) = .ok len s) :
    ∃ entries : List (Fin size → Entry),
      List.Forall₂ (fun entries n => ∀ k, (entries k).Covers n) entries
        (blockCounts count size) ∧
      s.observed.toList = entries.flatMap Entry.blockEvents ++ [.stream count len] ∧
      len = 1 + Layout.tailSize size + (entries.map Entry.blockBytes).sum := by
  obtain ⟨size, rfl⟩ := (of_encode_eq_ok _ _ h).1.validSize.exists_size
  obtain ⟨format, hlen, hobserved⟩ := encode_ok_transcript _ _ h
  refine ⟨_, entries_cover format size count source, ?_, hlen.trans (jobBytes_length _)⟩
  rw [hobserved]
  change (Array.push _ _).toList = _
  rw [Array.toList_push, toList_listen_log, events_jobMarks]
  rfl

/-- Observers only observe: the encoder gives back the same with every one of them. One that
keeps every event keeps, for each block and channel in order, the runs of values of each group,
the groups, the header and the channel, then the stream; and it keeps with less room the
beginning of what it keeps with more. -/
theorem encode_observed (version : UInt8) (count size : Nat) (source : List UInt8) :
    (∀ (σ : Type) (obs : Observer σ) (observed : σ) (destination : List UInt8),
      outcome (encode obs version count size source (.start destination observed)) =
        outcome (encode Observer.silent version count size source (.start destination ()))) ∧
    (∀ (destination : List UInt8) (len : Nat) (s : Session (Array Event)),
      encode Observer.log version count size source (.start destination #[]) = .ok len s →
      ∃ entries : List (Fin size → Entry),
        List.Forall₂ (fun entries n => ∀ k, (entries k).Covers n) entries
          (blockCounts count size) ∧
        s.observed.toList = entries.flatMap Entry.blockEvents ++ [.stream count len] ∧
        len = 1 + Layout.tailSize size + (entries.map Entry.blockBytes).sum) ∧
    ∀ destination destination' : List UInt8, destination.length ≤ destination'.length →
      logged version count size source destination <+:
        logged version count size source destination' ∧
      ∀ (e : StreamError) (len : Nat) (s s' : Session (Array Event)),
        encode Observer.log version count size source (.start destination #[]) = .error e s →
        encode Observer.log version count size source (.start destination' #[]) = .ok len s' →
        (logged version count size source destination).length <
          (logged version count size source destination').length := by
  refine ⟨fun σ obs observed destination => outcome_encode obs observed _ _,
    fun destination len s h => logged_entries h, fun destination destination' hle =>
    ⟨logged_isPrefix hle, fun e len s s' hfail hdone =>
      logged_length_lt Observer.log #[] hfail hdone⟩⟩

theorem encode_observed_one_record :
    (∃ entries : List (Fin 4 → Entry), entries.length = 1 ∧
      logged 1 1 4 [1, 2, 3, 4] (List.replicate 37 0) =
        entries.flatMap Entry.blockEvents ++ [.stream 1 37]) ∧
    (logged 1 1 4 [1, 2, 3, 4] (List.replicate 36 0)).length <
      (logged 1 1 4 [1, 2, 3, 4] (List.replicate 37 0)).length := by
  have hadmissible : Admissible 1 1 4 [1, 2, 3, 4] :=
    ⟨by decide, by decide, by decide, by decide⟩
  have hfits : streamLength 1 4 [1, 2, 3, 4] ≤ (List.replicate 37 (0 : UInt8)).length := by decide
  have hfull : (List.replicate 36 (0 : UInt8)).length < streamLength 1 4 [1, 2, 3, 4] := by decide
  obtain ⟨s', hdone, _⟩ := encode_of_le Observer.log #[] hadmissible hfits
  obtain ⟨_, _, s, hfail, _⟩ := encode_of_lt Observer.log #[] hadmissible hfull
  obtain ⟨_, hlogged, hfront⟩ := encode_observed 1 1 4 [1, 2, 3, 4]
  obtain ⟨entries, hcover, hlog, _⟩ := hlogged _ _ _ hdone
  have hlen : streamLength 1 4 [1, 2, 3, 4] = 37 := by decide
  rw [hlen] at hlog
  refine ⟨⟨entries, hcover.length_eq, ?_⟩, ?_⟩
  · rw [logged, hdone]
    exact hlog
  · exact (hfront _ _ (by decide)).2 _ _ _ _ hfail hdone

end VertexPack.DeltaStream
