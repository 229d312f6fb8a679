import VertexPack.Proofs.Outcome
import VertexPack.Proofs.StreamForm

/-! What was encoded is read back: the stream of an encoder is in one of the forms that a
decoder reads. -/
namespace VertexPack

namespace Channel
open Width

theorem groupsForm_bytes (groups : List Group) : GroupsForm groups (bytes groups) := by
  refine ⟨header (groups.map (·.select.1)), groups.map Group.payload, ?_, ?_, fun i hg hp => ?_, ?_⟩
  · rw [header_length, List.length_map]
  · rw [List.length_map]
  · have hname : named (header (groups.map (·.select.1))) i = groups[i].select.1 := by
      rw [named_header, List.getD_eq_getElem _ _ (by simpa using hg), List.getElem_map]
    rw [hname, List.getElem_map]
    exact Group.form_payload _
  · rw [bytes, List.flatMap]

/-- A sequence of groups can be written, and what was appended for it is read back, with any bytes
behind it that are enough for a last group; the reader stops behind what was appended. -/
theorem decodeGroups_encodeGroups {σ : Type} (obs : Observer σ) (channel : Nat)
    (groups : List Group) :
    (∃ room, ∀ s : Session σ, room ≤ s.writer.remaining →
      ∃ s', encodeGroups obs channel groups s = .ok () s') ∧
    ∀ s s' : Session σ, encodeGroups obs channel groups s = .ok () s' →
      ∃ bytes, s'.writer = s.writer.push bytes ∧ bytes.length ≤ s.writer.remaining ∧
        ∀ (r : Reader) (suffix : List UInt8), 24 ≤ suffix.length → r.rest = bytes ++ suffix →
          ∃ found r', decodeGroups groups.length r = .ok found r' ∧ found.toList = groups ∧
            r'.data = r.data ∧ r'.rest = suffix := by
  have happends := encodeGroups_appends obs channel groups
  constructor
  · refine ⟨headerSize groups.length + room groups, fun s hs => ?_⟩
    obtain ⟨s', hs', -⟩ := happends.fits s hs
    exact ⟨s', hs'⟩
  · intro s s' hrun
    refine ⟨bytes groups, happends.writer_eq_push hrun, happends.length_le_remaining hrun,
      fun r suffix hsuffix hrest => ?_⟩
    obtain ⟨r', hmove, rfl⟩ := Reader.exists_moves hrest
    have hread := (decodeGroups_reads groups.length).complete
      (a := ⟨groups.toArray, by simp⟩) (groupsForm_bytes groups) hmove hsuffix
    exact ⟨_, r', hread, rfl, hmove.data_eq, rfl⟩

theorem decodeGroups_encodeGroups_five :
    ∃ s', encodeGroups Observer.silent 0
        [.ofList [], .ofList [1, 2, 200], .replicate 16 9, .replicate 16 128, .ofList [3]]
        (.start (List.replicate 90 7) ()) = .ok () s' ∧
      ∃ found r', decodeGroups 5 (.ofBytes (s'.writer.written.toList ++ List.replicate 24 1)) =
          .ok found r' ∧
        found.toList =
          [.ofList [], .ofList [1, 2, 200], .replicate 16 9, .replicate 16 128, .ofList [3]] ∧
        r'.rest = List.replicate 24 1 := by
  obtain ⟨s', hs', -⟩ := (encodeGroups_appends Observer.silent 0
    [.ofList [], .ofList [1, 2, 200], .replicate 16 9, .replicate 16 128, .ofList [3]]).fits
    (.start (List.replicate 90 7) ()) (by decide)
  obtain ⟨bytes, hwriter, -, hread⟩ := (decodeGroups_encodeGroups _ _ _).2 _ _ hs'
  have hwritten : s'.writer.written.toList = bytes := by
    rw [hwriter]
    simp [Writer.push, Session.start, Writer.ofDestination]
  obtain ⟨found, r', hfound, hgroups, -, hrest⟩ := hread
    (.ofBytes (s'.writer.written.toList ++ List.replicate 24 1)) (List.replicate 24 1)
    (by decide) (by rw [hwritten]; rfl)
  exact ⟨s', hs', found, r', hfound, hgroups, hrest⟩

theorem columnForm_columnBytes (p : UInt8) (column : List UInt8) :
    ColumnForm p column (columnBytes p column) := by
  refine ⟨Group.split (Delta.encode p column), ?_, ?_, groupsForm_bytes _⟩
  · rw [Group.split_length, Delta.encode_length]
  · have htake := Group.take_flatMap_split (Delta.encode p column)
    rw [Delta.encode_length] at htake
    exact htake.symm

end Channel

theorem Block.form_bytes {size : Nat} (p : Record size) (records : List (Record size)) :
    Form p records (bytes p records) := by
  refine ⟨fun k => Channel.columnBytes (p.get k) (Record.column k records),
    fun k => Channel.columnForm_columnBytes _ _, ?_⟩
  rw [bytes, List.flatMap, List.ofFn_eq_map]

namespace DeltaStream

theorem blocksForm_blocksBytes {size : Nat} (p : Record size) (blocks : List (List (Record size))) :
    BlocksForm p blocks (blocksBytes p blocks) := by
  induction blocks generalizing p with
  | nil => rfl
  | cons b bs ih => exact ⟨_, _, Block.form_bytes p b, ih (b.getLastD p), rfl⟩

theorem seed_tailBytes {size : VertexSize} (first : Record size.val) :
    seed size (tailBytes first.toList) = first := by
  have hlen : (tailBytes first.toList).length - size.val = 32 - size.val := by
    rw [tailBytes_length, Vector.length_toList]
    unfold Layout.tailSize Layout.minTailSize
    omega
  have hdrop : (tailBytes first.toList).drop (32 - size.val) = first.toList := by
    rw [tailBytes, Vector.length_toList]
    exact List.drop_left' (List.length_replicate)
  rw [seed, hlen, hdrop]
  apply Vector.ext
  intro k hk
  simp [Record.ofList]

theorem streamForm_streamBytes (size : VertexSize) (format : FormatByte) (count : Nat)
    (source : List UInt8) (h : format.version ≤ FormatByte.maxDecodeVersion) :
    StreamForm size format (Record.split size.val count source)
      (streamBytes format.version count size.val source) := by
  refine ⟨_, _, h, ?_, ?_, rfl⟩
  · rw [seed_tailBytes]
    exact blocksForm_blocksBytes _ _
  · rw [tailBytes_length, Vector.length_toList]

theorem read_streamBytes_of_lt (size : VertexSize) (format : FormatByte) (count : Nat)
    (source : List UInt8) (h : FormatByte.maxDecodeVersion < format.version) :
    ∃ r, read size count (Reader.ofBytes (streamBytes format.version count size.val source)) =
      .error (.frame (.unsupportedVersion format.version)) r := by
  have hlen := (Job.ofSource format size count source).size_le_bytes
  obtain ⟨r, hr⟩ := FormatByte.read_of_lt
    (r := Reader.ofBytes (streamBytes format.version count size.val source)) rfl h
  refine ⟨r, ?_⟩
  rw [read_of_le hlen, bind_of_error (adaptExcept_of_error hr)]
  rfl

section
variable {σ : Type} {obs : Observer σ} {observed : σ} {version : UInt8} {count size len : Nat}
  {source destination out : List UInt8} {s : Session σ}

theorem read_streamBytes_of_le {size : VertexSize}
    (hadmissible : Admissible version count size.val source)
    (hversion : version ≤ FormatByte.maxDecodeVersion) :
    ∃ format r, read size count (.ofBytes (streamBytes version count size.val source)) =
      .ok (format, Record.split size.val count source) r :=
  ⟨_, read_of_streamForm Record.split_length
    (streamForm_streamBytes size ⟨version, hadmissible.version_le⟩ count source hversion)⟩

theorem decodeInto_streamBytes_of_le (hadmissible : Admissible version count size source)
    (hout : count * size ≤ out.length) (hversion : version ≤ FormatByte.maxDecodeVersion) :
    ∃ d, decodeInto out count size (streamBytes version count size source) = .ok d ∧
      d.bytes = source.take (count * size) ++ out.drop (count * size) := by
  obtain ⟨size, rfl⟩ := hadmissible.validSize.exists_size
  obtain ⟨format, r, hr⟩ := read_streamBytes_of_le hadmissible hversion
  refine ⟨_, VertexBuffer.decodeInto_of_read_ok hadmissible.lt_limit hout hr, ?_⟩
  rw [Decoded.close, Record.flatten_split hadmissible.le_length]

theorem decodeInto_streamBytes_of_lt (hadmissible : Admissible version count size source)
    (hout : count * size ≤ out.length) (hversion : FormatByte.maxDecodeVersion < version) :
    decodeInto out count size (streamBytes version count size source) =
      .error (.frame (.unsupportedVersion version)) := by
  obtain ⟨size, rfl⟩ := hadmissible.validSize.exists_size
  obtain ⟨r, hr⟩ :=
    read_streamBytes_of_lt size ⟨version, hadmissible.version_le⟩ count source hversion
  exact VertexBuffer.decodeInto_of_read_error hadmissible.lt_limit hout hr

theorem encode_other_version {version' : UInt8}
    (h : encode obs version count size source (.start destination observed) = .ok len s)
    (hversion : version' ≤ FormatByte.maxVersion) :
    ∃ s', encode obs version' count size source (.start destination observed) = .ok len s' ∧
      s'.writer.destination.drop 1 = s.writer.destination.drop 1 := by
  obtain ⟨hadmissible, rfl, hle, hbytes⟩ := of_encode_eq_ok obs observed h
  have hadmissible' : Admissible version' count size source :=
    { hadmissible with version_le := hversion }
  obtain ⟨s', hs', hbytes'⟩ := encode_of_le obs observed hadmissible' hle
  refine ⟨s', hs', ?_⟩
  rw [hbytes, hbytes', streamBytes, streamBytes, List.cons_append, List.cons_append,
    List.drop_one, List.drop_one, List.tail_cons, List.tail_cons]

/-- What was encoded is decoded again if decoders know the version, and refused for its
version if they do not; the version is in the first byte and nowhere else. -/
theorem decodeInto_encode
    (h : encode obs version count size source (.start destination observed) = .ok len s)
    (hout : count * size ≤ out.length) :
    (version ≤ 1 → ∃ d, decodeInto out count size (s.writer.destination.take len) = .ok d ∧
      d.bytes = source.take (count * size) ++ out.drop (count * size)) ∧
    (1 < version → decodeInto out count size (s.writer.destination.take len) =
      .error (.frame (.unsupportedVersion version))) ∧
    ∀ version' ≤ 15, ∃ s', encode obs version' count size source (.start destination observed) =
        .ok len s' ∧
      s'.writer.destination.drop 1 = s.writer.destination.drop 1 := by
  obtain ⟨hadmissible, -⟩ := of_encode_eq_ok obs observed h
  refine ⟨?_, ?_, fun version' hversion' => encode_other_version h hversion'⟩
  · rw [take_of_encode_eq_ok obs observed h]
    exact decodeInto_streamBytes_of_le hadmissible hout
  · rw [take_of_encode_eq_ok obs observed h]
    exact decodeInto_streamBytes_of_lt hadmissible hout

theorem decodeInto_encode_two_records :
    ∃ s, encode Observer.silent 1 2 4 [9, 8, 7, 6, 10, 8, 7, 5] (.start (List.replicate 50 0) ()) =
        .ok 45 s ∧
      ∃ d, decodeInto (List.replicate 10 3) 2 4 (s.writer.destination.take 45) = .ok d ∧
        d.bytes = [9, 8, 7, 6, 10, 8, 7, 5, 3, 3] := by
  have hadmissible : Admissible 1 2 4 [9, 8, 7, 6, 10, 8, 7, 5] :=
    ⟨by decide, by decide, by decide, by decide⟩
  have hlen : streamLength 2 4 [9, 8, 7, 6, 10, 8, 7, 5] = 45 := by decide
  have hle : streamLength 2 4 [9, 8, 7, 6, 10, 8, 7, 5] ≤
      (List.replicate 50 (0 : UInt8)).length := by decide
  obtain ⟨s, hs, _⟩ := encode_of_le Observer.silent () hadmissible hle
  rw [hlen] at hs
  refine ⟨s, hs, ?_⟩
  have hout : 2 * 4 ≤ (List.replicate 10 (3 : UInt8)).length := by decide
  obtain ⟨hdecode, _⟩ := decodeInto_encode hs hout
  exact hdecode (by decide)

end
end DeltaStream
end VertexPack
