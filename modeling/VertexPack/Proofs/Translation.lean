import VertexPack.Proofs.Observation
import VertexPack.Proofs.Partition
import VertexPack.Proofs.Shift

/-! Encoding records to which one record is added. Everything that is written before the first
record at the very end is made of differences, so it stays as it is, and so does everything that is
reported but the bits that values share. -/
namespace VertexPack
open Transcript

/-- An observer that takes no notice of shared bits. -/
def Observer.Heedless {σ : Type} (obs : Observer σ) : Prop :=
  ∀ observed event, event.isConsistency = true → obs.record observed event = observed

namespace Mark
variable {σ : Type} {obs : Observer σ}

/-- An entry without the events about shared bits. -/
def bare : Mark → Mark
  | demand n => demand n
  | advance n => advance n
  | report event => if event.isConsistency then offer [] else report event
  | offer events => offer (events.filter fun event => !event.isConsistency)

theorem bare_keeps (m : Mark) : m.bare.need = m.need ∧ m.bare.width = m.width ∧
    m.bare.events = m.events.filter fun event => !event.isConsistency := by
  cases m with
  | report event => cases h : event.isConsistency <;> simp [bare, h, need, width, events]
  | demand _ | advance _ | offer _ => exact ⟨rfl, rfl, rfl⟩

theorem hear_bare (hobs : obs.Heedless) (observed : σ) (m : Mark) :
    m.bare.hear obs observed = m.hear obs observed := by
  have hfold (events : List Event) (observed : σ) :
      (events.filter fun event => !event.isConsistency).foldl obs.record observed =
        events.foldl obs.record observed := by
    induction events generalizing observed with
    | nil => rfl
    | cons event events ih =>
      rw [List.filter_cons, List.foldl_cons]
      cases h : event.isConsistency with
      | true => rw [hobs observed event h]; exact ih observed
      | false => exact ih _
  cases m with
  | report event =>
    cases h : event.isConsistency with
    | true => simp [bare, h, hear, hobs observed event h]
    | false => simp [bare, h]
  | offer events => simp only [bare, hear, hfold]
  | demand _ | advance _ => rfl

end Mark

namespace Transcript
variable {σ : Type} {obs : Observer σ} {ms ms' : List Mark}

theorem refusal_bare (r : Nat) (ms : List Mark) : refusal r (ms.map Mark.bare) = refusal r ms := by
  induction ms generalizing r with
  | nil => rfl
  | cons m ms ih =>
    obtain ⟨hneed, hwidth, _⟩ := m.bare_keeps
    rw [List.map_cons, refusal, refusal, hneed, hwidth, ih]

theorem done_bare (r : Nat) (ms : List Mark) :
    done r (ms.map Mark.bare) = (done r ms).map Mark.bare := by
  induction ms generalizing r with
  | nil => rfl
  | cons m ms ih =>
    obtain ⟨hneed, hwidth, _⟩ := m.bare_keeps
    rw [List.map_cons, done, done, hneed, hwidth, ih]
    split
    · rw [List.map_cons]
    · rfl

theorem events_bare (ms : List Mark) :
    events (ms.map Mark.bare) = (events ms).filter fun event => !event.isConsistency := by
  induction ms with
  | nil => rfl
  | cons m ms ih =>
    obtain ⟨_, _, hevents⟩ := m.bare_keeps
    rw [List.map_cons, events_cons, events_cons, List.filter_append, ih, hevents]

theorem events_filter_congr (h : ms'.map Mark.bare = ms.map Mark.bare) :
    (events ms').filter (fun event => !event.isConsistency) =
      (events ms).filter fun event => !event.isConsistency := by
  rw [← events_bare, h, events_bare]

theorem listen_bare (hobs : obs.Heedless) (observed : σ) (ms : List Mark) :
    listen obs observed (ms.map Mark.bare) = listen obs observed ms := by
  rw [listen, listen, List.foldl_map]
  congr 1
  funext observed m
  exact Mark.hear_bare hobs observed m

theorem listen_congr (hobs : obs.Heedless) (observed : σ)
    (h : ms'.map Mark.bare = ms.map Mark.bare) :
    listen obs observed ms' = listen obs observed ms := by
  rw [← listen_bare hobs observed ms', h, listen_bare hobs]

end Transcript

/-- The transcript of a channel tells its values apart by their deltas alone. -/
theorem Channel.marks_bare_congr (channel : Nat) {p p' : UInt8} {column column' : List UInt8}
    (h : Delta.encode p' column' = Delta.encode p column) :
    (marks channel p' column').map Mark.bare = (marks channel p column).map Mark.bare := by
  have hoffer (p : UInt8) (column : List UInt8) :
      (Mark.offer (consistencyEvents channel p column)).bare = .offer [] := by
    rw [Mark.bare, consistencyEvents, List.filter_map]
    simp [Function.comp_def, Event.isConsistency]
  rw [marks, marks, List.map_cons, List.map_cons, hoffer, hoffer, columnBytes, columnBytes, h]

theorem Block.marks_bare_shift {size : Nat} (d p : Record size) (records : List (Record size)) :
    (Block.marks (Record.shift d p) (records.map (Record.shift d))).map Mark.bare =
      (Block.marks p records).map Mark.bare := by
  rw [Block.marks, Block.marks, List.map_flatMap, List.map_flatMap]
  congr 1
  funext k
  exact Channel.marks_bare_congr k (Record.encode_column_shift d p records k)

namespace DeltaStream
variable {σ : Type} {size : Nat}

theorem blocksMarks_bare_shift (d p : Record size) (blocks : List (List (Record size))) :
    (blocksMarks (Record.shift d p) (blocks.map (List.map (Record.shift d)))).map Mark.bare =
      (blocksMarks p blocks).map Mark.bare := by
  induction blocks generalizing p with
  | nil => rfl
  | cons b bs ih =>
    rw [List.map_cons, blocksMarks, blocksMarks, List.map_append, List.map_append,
      Block.marks_bare_shift, List.getLastD_map, ih]

namespace Job

def front (job : Job) : List UInt8 :=
  job.format.raw :: (blocksBytes job.first job.blocks ++
    List.replicate (Layout.minTailSize - job.size.val) 0)

theorem bytes_eq_front (job : Job) : job.bytes = job.front ++ job.first.toList := by
  rw [bytes, front, bodyBytes, tailBytes, Vector.length_toList, ← List.append_assoc]
  rfl

/-- Jobs whose streams differ in the first record at their end at most, and whose transcripts in
the bits that values share. -/
structure Alike (job job' : Job) : Prop where
  size_val : job'.size.val = job.size.val
  records_length : job'.records.length = job.records.length
  front_eq : job'.front = job.front
  marks_bare : job'.marks.map Mark.bare = job.marks.map Mark.bare

theorem alike_shift (format : FormatByte) (size : VertexSize) (d : Record size.val)
    {records : List (Record size.val)} (hne : records ≠ []) :
    Alike ⟨format, size, records⟩ ⟨format, size, records.map (Record.shift d)⟩ := by
  have hfirst : first ⟨format, size, records.map (Record.shift d)⟩ =
      Record.shift d (first ⟨format, size, records⟩) := by
    cases records with
    | nil => exact absurd rfl hne
    | cons r rs => rfl
  have hblocks : blocks ⟨format, size, records.map (Record.shift d)⟩ =
      (blocks ⟨format, size, records⟩).map (List.map (Record.shift d)) := chunks_map _ _
  refine ⟨rfl, List.length_map _, ?_, ?_⟩
  · rw [front, hfirst, hblocks, blocksBytes_shift, front]
  · rw [marks, hfirst, hblocks, marks]
    simp only [List.map_cons, List.map_append, blocksMarks_bare_shift, tailBytes_length,
      Vector.length_toList]

namespace Alike
variable {job job' : Job}

theorem bytes_length (h : Alike job job') : job'.bytes.length = job.bytes.length := by
  rw [bytes_eq_front, bytes_eq_front, List.length_append, List.length_append, h.front_eq,
    Vector.length_toList, Vector.length_toList, h.size_val]

theorem refusal_eq (h : Alike job job') (r : Nat) :
    refusal r job'.marks = refusal r job.marks := by
  rw [← refusal_bare r job'.marks, h.marks_bare, refusal_bare]

theorem done_bare (h : Alike job job') (r : Nat) :
    (done r job'.marks).map Mark.bare = (done r job.marks).map Mark.bare := by
  rw [← Transcript.done_bare, h.marks_bare, Transcript.done_bare]

theorem encode (h : Alike job job') (obs : Observer σ) (observed : σ)
    (destination : List UInt8) :
    (∃ s s', job.encode obs (.start destination observed) = .ok job.bytes.length s ∧
      job'.encode obs (.start destination observed) = .ok job.bytes.length s' ∧
      s.writer.destination =
        job.front ++ job.first.toList ++ destination.drop job.bytes.length ∧
      s'.writer.destination =
        job.front ++ job'.first.toList ++ destination.drop job.bytes.length ∧
      (obs.Heedless → s'.observed = s.observed)) ∨
    ∃ e s s', job.encode obs (.start destination observed) = .error e s ∧
      job'.encode obs (.start destination observed) = .error e s' ∧
      (obs.Heedless → s'.observed = s.observed) := by
  have hrefusal := h.refusal_eq destination.length
  cases hroom : refusal destination.length job.marks with
  | none =>
    rw [hroom] at hrefusal
    obtain ⟨s, hs, hw, hobserved⟩ := job.encode_of_none obs observed hroom
    obtain ⟨s', hs', hw', hobserved'⟩ := job'.encode_of_none obs observed hrefusal
    rw [h.bytes_length] at hs' hw' hobserved'
    refine .inl ⟨s, s', hs, hs', by rw [hw, bytes_eq_front], ?_, fun hobs => ?_⟩
    · rw [hw', bytes_eq_front job', h.front_eq]
    · rw [hobserved, hobserved', listen_congr hobs observed h.marks_bare, h.records_length]
  | some e =>
    rw [hroom] at hrefusal
    obtain ⟨s, hs, hobserved⟩ := job.encode_of_some obs observed hroom
    obtain ⟨s', hs', hobserved'⟩ := job'.encode_of_some obs observed hrefusal
    refine .inr ⟨_, s, s', hs, hs', fun hobs => ?_⟩
    rw [hobserved, hobserved', listen_congr hobs observed (h.done_bare _)]

theorem logged {version : UInt8} {count size : Nat} {source source' : List UInt8}
    (h : Alike job job') (hjob : Job.prepare version count size source = .ok job)
    (hjob' : Job.prepare version count size source' = .ok job') (destination : List UInt8) :
    (logged version count size source' destination).filter (fun event => !event.isConsistency) =
      (logged version count size source destination).filter fun event => !event.isConsistency := by
  have hrefusal := h.refusal_eq destination.length
  cases hroom : refusal destination.length job.marks with
  | none =>
    rw [hroom] at hrefusal
    rw [logged_of_none hjob hroom, logged_of_none hjob' hrefusal, List.filter_append,
      List.filter_append, events_filter_congr h.marks_bare, h.bytes_length, h.records_length]
  | some e =>
    rw [hroom] at hrefusal
    rw [logged_of_some hjob hroom, logged_of_some hjob' hrefusal,
      events_filter_congr (h.done_bare _)]

end Alike

theorem toList_first_ofSource (format : FormatByte) {size : VertexSize} {count : Nat}
    {source : List UInt8} (hcount : 0 < count) (h : count * size.val ≤ source.length) :
    (ofSource format size count source).first.toList = source.take size.val := by
  obtain ⟨n, rfl⟩ := Nat.exists_eq_succ_of_ne_zero (Nat.ne_of_gt hcount)
  have hpieces := Record.map_toList_split h
  change ((Record.split size.val (n + 1) source).headD _).toList = _
  cases hsplit : Record.split size.val (n + 1) source with
  | nil => rw [hsplit, pieces] at hpieces; cases hpieces
  | cons r rs =>
    rw [hsplit, pieces, List.map_cons, List.cons.injEq] at hpieces
    exact hpieces.1

end Job

section Source
variable {version : UInt8} {count : Nat} {source source' : List UInt8}

/-- Adding one record to every record of a source changes nothing about its encoding but the first
record, which ends the stream. The encoding succeeds or is refused as before, and of what is
reported only the bits that values share may change. -/
theorem encode_translation (h : Admissible version count size source) (hcount : 0 < count)
    (hle : count * size ≤ source'.length) (d : Record size)
    (hshift : ∀ i < count, ∀ k : Fin size,
      Record.byteAt size source' i k = Record.byteAt size source i k + d.get k) :
    (∀ (σ : Type) (obs : Observer σ) (observed : σ) (destination : List UInt8),
      (∀ len s, encode obs version count size source (.start destination observed) = .ok len s →
        ∃ front : List UInt8, front.length + size = len ∧
          s.writer.destination = front ++ source.take size ++ destination.drop len ∧
          ∃ s', encode obs version count size source' (.start destination observed) = .ok len s' ∧
            s'.writer.destination = front ++ source'.take size ++ destination.drop len) ∧
      (∀ e s, encode obs version count size source (.start destination observed) = .error e s →
        ∃ s', encode obs version count size source' (.start destination observed) = .error e s') ∧
      (obs.Heedless → learnt (encode obs version count size source' (.start destination observed)) =
        learnt (encode obs version count size source (.start destination observed)))) ∧
    ∀ destination : List UInt8,
      (logged version count size source' destination).filter (fun event => !event.isConsistency) =
        (logged version count size source destination).filter
          fun event => !event.isConsistency := by
  obtain ⟨size, rfl⟩ := h.validSize.exists_size
  have hprepare := prepare_of_le h.version_le h.lt_limit h.le_length
  have hprepare' := prepare_of_le h.version_le h.lt_limit hle
  have halike : Job.Alike (.ofSource ⟨version, h.version_le⟩ size count source)
      (.ofSource ⟨version, h.version_le⟩ size count source') := by
    rw [Job.ofSource, Job.ofSource, Record.split_eq_map_shift hshift]
    exact Job.alike_shift _ size d (List.ne_nil_of_length_pos (by rwa [Record.split_length]))
  refine ⟨fun σ obs observed destination => ?_,
    fun destination => halike.logged hprepare hprepare' destination⟩
  rw [encode_of_prepare_ok hprepare, encode_of_prepare_ok hprepare']
  rcases halike.encode obs observed destination with
    ⟨s, s', hs, hs', hw, hw', hobserved⟩ | ⟨e, s, s', hs, hs', hobserved⟩
  · rw [Job.toList_first_ofSource _ hcount h.le_length] at hw
    rw [Job.toList_first_ofSource _ hcount hle] at hw'
    rw [hs, hs']
    refine ⟨?_, ?_, hobserved⟩
    · rintro _ _ ⟨⟩
      refine ⟨_, ?_, hw, s', rfl, hw'⟩
      rw [Job.bytes_eq_front, List.length_append, Vector.length_toList]
      rfl
    · intro e t hfail
      cases hfail
  · rw [hs, hs']
    refine ⟨?_, ?_, hobserved⟩
    · intro len t hdone
      cases hdone
    · rintro _ _ ⟨⟩
      exact ⟨s', rfl⟩

theorem encode_translation_two_records :
    ∃ front : List UInt8, front.length + 4 = streamLength 2 4 [1, 2, 3, 4, 2, 2, 3, 5] ∧
      ∃ s', encode Observer.silent 1 2 4 [2, 1, 3, 11, 3, 1, 3, 12]
          (.start (List.replicate 64 0) ()) = .ok (streamLength 2 4 [1, 2, 3, 4, 2, 2, 3, 5]) s' ∧
        s'.writer.destination = front ++ [2, 1, 3, 11] ++ (List.replicate 64 0).drop
          (streamLength 2 4 [1, 2, 3, 4, 2, 2, 3, 5]) := by
  have hadmissible : Admissible 1 2 4 [1, 2, 3, 4, 2, 2, 3, 5] :=
    ⟨by decide, by decide, by decide, by decide⟩
  have hfits : streamLength 2 4 [1, 2, 3, 4, 2, 2, 3, 5] ≤
      (List.replicate 64 (0 : UInt8)).length := by decide
  have hlonger : 2 * 4 ≤ [(2 : UInt8), 1, 3, 11, 3, 1, 3, 12].length := by decide
  obtain ⟨s, hs, _⟩ := encode_of_le Observer.silent () hadmissible hfits
  obtain ⟨hruns, _⟩ :=
    encode_translation hadmissible (by decide) hlonger #v[1, 255, 0, 7] (by decide)
  obtain ⟨front, hlen, _, hrun⟩ := (hruns Unit Observer.silent () (List.replicate 64 0)).1 _ _ hs
  exact ⟨front, hlen, hrun⟩

end Source
end DeltaStream
end VertexPack
