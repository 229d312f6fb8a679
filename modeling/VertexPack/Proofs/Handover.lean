import VertexPack.Proofs.Outcome
import VertexPack.Proofs.Predictors
import VertexPack.Proofs.Repeating

/-! A stream that is stopped behind a full block. What is written of it from there on is what its
later blocks take, and of the records before them only the last one is known. -/
namespace VertexPack.DeltaStream

theorem blocksBytes_append {size : Nat} (p : Record size) (bs cs : List (List (Record size))) :
    blocksBytes p (bs ++ cs) =
      blocksBytes p bs ++ blocksBytes (bs.flatten.getLastD p) cs := by
  induction bs generalizing p with
  | nil => rfl
  | cons b bs ih =>
    simp only [List.cons_append, blocksBytes, ih, List.flatten_cons, getLastD_append,
      List.append_assoc]

theorem firstRecord_take {size m : Nat} (hm : 0 < m) (records : List (Record size)) :
    firstRecord (records.take m) = firstRecord records := by
  cases m with
  | zero => contradiction
  | succ m =>
    cases records with
    | nil => rfl
    | cons r rs => rfl

/-- The stream of some records: what a destination with enough room takes, whatever it held before
and whoever looks on, and what one with less room is refused. -/
structure IsStream (version : UInt8) (count size : Nat) (source bytes : List UInt8) : Prop where
  fits : ∀ {σ : Type} (obs : Observer σ) (observed : σ) (destination : List UInt8),
    bytes.length ≤ destination.length → ∃ s,
      encode obs version count size source (.start destination observed) = .ok bytes.length s ∧
        s.writer.destination = bytes ++ destination.drop bytes.length
  full : ∀ {σ : Type} (obs : Observer σ) (observed : σ) (destination : List UInt8),
    destination.length < bytes.length → ∃ needed available s,
      encode obs version count size source (.start destination observed) =
        .error (.outputTooSmall needed available) s ∧ available < needed

theorem isStream_streamBytes {version : UInt8} {count size : Nat} {source : List UInt8}
    (h : Admissible version count size source) :
    IsStream version count size source (streamBytes version count size source) where
  fits obs observed destination hle := by
    rw [streamBytes_length h] at hle ⊢
    exact encode_of_le obs observed h hle
  full obs observed destination hlt := by
    rw [streamBytes_length h] at hlt
    exact encode_of_lt obs observed h hlt

def frontBytes (version : UInt8) (count size : Nat) (source : List UInt8) : List UInt8 :=
  (FormatByte.tag ||| version) :: blocksBytes (firstRecord (Record.split size count source))
    (chunks (Layout.blockLength size) (Record.split size count source))

theorem streamBytes_eq_append (version : UInt8) (count size : Nat) (source : List UInt8) :
    streamBytes version count size source = frontBytes version count size source ++
      tailBytes (firstRecord (Record.split size count source)).toList := rfl

def blocksBehind (m count size : Nat) (source : List UInt8) : List (List UInt8) :=
  chunks (Layout.blockLength size * size) ((source.drop (m * size)).take ((count - m) * size))

section
variable {size : VertexSize} {count m : Nat} {source : List UInt8}

theorem firstRecord_split {size : Nat} (hm : 0 < m) (hle : m ≤ count) :
    firstRecord (Record.split size m source) = firstRecord (Record.split size count source) := by
  rw [← Record.take_split hle, firstRecord_take hm]

theorem frontBytes_eq_append (version : UInt8) (hm : 0 < m)
    (hdvd : Layout.blockLength size.val ∣ m) (hle : m ≤ count) :
    frontBytes version count size.val source = frontBytes version m size.val source ++
      blocksBytes ((Record.split size.val m source).getLastD
          (firstRecord (Record.split size.val count source)))
        (chunks (Layout.blockLength size.val) ((Record.split size.val count source).drop m)) := by
  have hB := Layout.blockLength_pos size
  have hfull : Layout.blockLength size.val ∣ (Record.split size.val m source).length := by
    rwa [Record.split_length]
  have hchunks := chunks_append hB hfull ((Record.split size.val count source).drop m)
  rw [← Record.take_split hle, List.take_append_drop, Record.take_split hle] at hchunks
  rw [frontBytes, frontBytes, hchunks, blocksBytes_append, chunks_flatten hB,
    firstRecord_split hm hle, List.cons_append]

theorem blocksBehind_eq_map (h : count * size.val ≤ source.length) (m : Nat) :
    blocksBehind m count size.val source =
      (chunks (Layout.blockLength size.val) ((Record.split size.val count source).drop m)).map
        Record.flatten := by
  rw [blocksBehind, ← Record.flatten_drop_split h,
    Record.chunks_flatten_records (Layout.blockLength_pos size) size.pos]

end

theorem encodeBlocks_blocksBehind {τ : Type} (obs : Observer τ) {size : VertexSize} {count : Nat}
    {source : List UInt8} (last : Record size.val) (h : count * size.val ≤ source.length)
    (m : Nat) :
    ∃ r step, Appends r (blocksBytes last (chunks (Layout.blockLength size.val)
        ((Record.split size.val count source).drop m))) step ∧
      Predictor.encodeBlocks obs ⟨size.val, last, size.pos, size.le_max⟩
        (blocksBehind m count size.val source) = step >>= fun _ =>
          pure ⟨size.val, ((Record.split size.val count source).drop m).getLastD last,
            size.pos, size.le_max⟩ := by
  have hB := Layout.blockLength_pos size
  have hblocks (b) (hb : b ∈ chunks (Layout.blockLength size.val)
      ((Record.split size.val count source).drop m)) :
      b ≠ [] ∧ b.length ≤ Layout.maxBlockLength := by
    obtain ⟨hne, hlen⟩ := of_mem_chunks hB hb
    exact ⟨hne, Nat.le_trans hlen (Nat.min_le_right _ _)⟩
  have hrun := Predictor.encodeBlocks_appends obs last size.pos size.le_max hblocks
  rwa [chunks_flatten hB, ← blocksBehind_eq_map h] at hrun

section
variable {σ τ : Type} {obs : Observer σ} {observed : σ} {version : UInt8} {count size len m : Nat}
  {source destination : List UInt8} {s : Session σ}

/-- Up to its tail, a stream is the one of the records in front of a block boundary, followed by
what the later blocks take when they are written one by one with a predictor that starts from the
last of these records. Both streams have the same tail. -/
theorem encode_handover
    (h : encode obs version count size source (.start destination observed) = .ok len s)
    (hm : 0 < m) (hdvd : Layout.blockLength size ∣ m) (hle : m ≤ count) (obs' : Observer τ) :
    ∃ front bytes tail p,
      s.writer.destination.take len = front ++ bytes ++ tail ∧
      tail.length = Layout.tailSize size ∧
      IsStream version m size source (front ++ tail) ∧
      Predictor.ofBytes (Record.bytesAt size source (m - 1)) = .ok p ∧
      ∀ t : Session τ,
        (∀ q t', p.encodeBlocks obs' (blocksBehind m count size source) t = .ok q t' →
          t'.writer = t.writer.push bytes ∧ q.bytes = Record.bytesAt size source (count - 1)) ∧
        (bytes.length + Layout.headroom ≤ t.writer.remaining → ∃ q t',
          p.encodeBlocks obs' (blocksBehind m count size source) t = .ok q t') := by
  obtain ⟨hadmissible, _⟩ := of_encode_eq_ok obs observed h
  rw [take_of_encode_eq_ok obs observed h]
  obtain ⟨size, rfl⟩ := hadmissible.validSize.exists_size
  have hbytes := Nat.mul_le_mul_right size.val hle
  have hshort : Admissible version m size.val source :=
    { hadmissible with
      lt_limit := Nat.lt_of_le_of_lt hbytes hadmissible.lt_limit
      le_length := Nat.le_trans hbytes hadmissible.le_length }
  have hstream := streamBytes_eq_append version count size.val source
  rw [frontBytes_eq_append version hm hdvd hle] at hstream
  -- Both streams begin with the same record, which is what their tails repeat.
  have hfront := isStream_streamBytes hshort
  rw [streamBytes_eq_append, firstRecord_split hm hle] at hfront
  have hlast (r : Record size.val) : ((Record.split size.val count source).drop m).getLastD
      ((Record.split size.val m source).getLastD r) =
        (Record.split size.val count source).getLastD r := by
    rw [← Record.take_split hle, ← getLastD_append, List.take_append_drop]
  have hp := Record.bytesAt_last (firstRecord (Record.split size.val count source)) hm
    hshort.le_length
  have hq := Record.bytesAt_last (firstRecord (Record.split size.val count source))
    (Nat.lt_of_lt_of_le hm hle) hadmissible.le_length
  obtain ⟨r, step, hstep, hrun⟩ := encodeBlocks_blocksBehind obs' _ hadmissible.le_length m
  rw [hlast] at hrun
  refine ⟨_, _, _, _, hstream, ?_, hfront, hp ▸ Predictor.ofBytes_toList _,
    fun t => ⟨fun q t' ht => ?_, fun hroom => ?_⟩⟩
  · rw [tailBytes_length, Vector.length_toList]
  · rw [hrun] at ht
    obtain ⟨rfl, hwriter⟩ := hstep.of_bind_pure_eq_ok ht
    exact ⟨hwriter, hq.symm⟩
  · obtain ⟨t', ht', _⟩ := hstep.fits t (Nat.le_trans hstep.room_le hroom)
    rw [hrun]
    exact ⟨_, t', bind_of_ok ht'⟩

theorem encode_handover_full_block :
    ∃ s len front bytes tail p,
      encode Observer.silent 1 257 4 (List.replicate 1028 7)
        (.start (List.replicate (streamLength 257 4 (List.replicate 1028 7)) 0) ()) = .ok len s ∧
      s.writer.destination.take len = front ++ bytes ++ tail ∧
      IsStream 1 256 4 (List.replicate 1028 7) (front ++ tail) ∧
      Predictor.ofBytes [7, 7, 7, 7] = .ok p ∧
      ∀ t : Session Unit, bytes.length + 24 ≤ t.writer.remaining → ∃ q t',
        p.encodeBlocks Observer.silent [[7, 7, 7, 7]] t = .ok q t' ∧
          t'.writer = t.writer.push bytes := by
  have hlen : 257 * 4 ≤ (List.replicate 1028 (7 : UInt8)).length := by
    rw [List.length_replicate]
  have hadmissible : Admissible 1 257 4 (List.replicate 1028 7) :=
    ⟨by decide, by decide, by decide, hlen⟩
  obtain ⟨s, hs, _⟩ := encode_of_le Observer.silent () hadmissible
    (Nat.le_of_eq (List.length_replicate (a := (0 : UInt8))).symm)
  have hlater : blocksBehind 256 257 4 (List.replicate 1028 7) = [[7, 7, 7, 7]] := by decide +kernel
  have hlast : Record.bytesAt 4 (List.replicate 1028 7) (256 - 1) = [7, 7, 7, 7] := by
    decide +kernel
  obtain ⟨front, bytes, tail, p, hstream, _, hfront, hp, hrun⟩ :=
    encode_handover hs (by decide) (by decide : Layout.blockLength 4 ∣ 256) (by decide)
      Observer.silent
  rw [hlast] at hp
  rw [hlater] at hrun
  refine ⟨s, _, front, bytes, tail, p, hs, hstream, hfront, hp, fun t ht => ?_⟩
  obtain ⟨q, t', hq⟩ := (hrun t).2 ht
  exact ⟨q, t', hq, ((hrun t).1 q t' hq).1⟩

end
end VertexPack.DeltaStream
