import VertexPack.Proofs.RoundTrip

/-! No stream that decodes to given records is shorter than the one that is encoded from
them. A group costs no more than any form of it, zeros behind the end of a column cost
nothing, and from its own first record a column starts with a delta of zero. -/
namespace VertexPack

theorem Delta.getD_encode_le {p q : UInt8} {vs : List UInt8} (h : p = q ∨ vs.headD p = p)
    (t : Nat) :
    (encode p vs).getD t 0 ≤ (encode q vs).getD t 0 := by
  obtain rfl | h := h
  · exact UInt8.le_refl _
  · cases vs with
    | nil => exact UInt8.le_refl _
    | cons v vs =>
      rw [List.headD_cons] at h
      subst h
      cases t with
      | zero =>
        rw [encode, List.getD_cons_zero, UInt8.sub_self]
        exact UInt8.zero_le
      | succ t => exact UInt8.le_refl _

namespace Channel

theorem GroupsForm.le_length {groups : List Group} {bs : List UInt8} (h : GroupsForm groups bs) :
    Width.headerSize groups.length + (groups.map Group.cost).sum ≤ bs.length := by
  obtain ⟨head, parts, hhead, hparts, hform, rfl⟩ := h
  have hcost : (groups.map Group.cost).sum ≤ (parts.map List.length).sum := by
    apply List.Forall₂.sum_le_sum
    rw [List.forall₂_map_left_iff, List.forall₂_map_right_iff, List.forall₂_iff_get]
    exact ⟨hparts.symm, fun i hg hp => Group.cost_le_of_form (hform i hg hp)⟩
  rw [List.length_append, List.length_flatten, hhead]
  omega

theorem columnBytes_length_le {p q : UInt8} {column bs : List UInt8} (h : ColumnForm q column bs)
    (hp : p = q ∨ column.headD p = p) : (columnBytes p column).length ≤ bs.length := by
  obtain ⟨groups, hgroups, hdeltas, hform⟩ := h
  have hcost : Group.columnCost (Delta.encode p column) ≤ (groups.map Group.cost).sum := by
    apply Group.columnCost_le
    · rw [hgroups, Delta.encode_length]
    · intro t ht
      rw [Delta.encode_length] at ht
      have hentry : (Delta.encode q column).getD t 0 = (groups.flatMap Vector.toList).getD t 0 := by
        rw [hdeltas, List.getD_eq_getElem?_getD, List.getElem?_take_of_lt ht,
          List.getD_eq_getElem?_getD]
      rw [← hentry]
      exact Delta.getD_encode_le hp t
  have hlen := hform.le_length
  rw [columnBytes_length, ← hgroups]
  omega

end Channel

theorem Block.bytes_length_le {size : Nat} {p q : Record size} {records : List (Record size)}
    {bs : List UInt8} (h : Form q records bs) (hp : p = q ∨ records.headD p = p) :
    (bytes p records).length ≤ bs.length := by
  obtain ⟨parts, hparts, rfl⟩ := h
  have hcolumn (k : Fin size) :
      (Channel.columnBytes (p.get k) (Record.column k records)).length ≤ (parts k).length := by
    apply Channel.columnBytes_length_le (hparts k)
    obtain rfl | hp := hp
    · exact .inl rfl
    · right
      rw [Record.headD_column, hp]
  rw [bytes, List.length_flatMap, List.length_flatten, List.ofFn_eq_map, List.map_map]
  exact List.sum_le_sum fun k _ => hcolumn k

namespace DeltaStream

theorem blocksBytes_length_le {size B : Nat} (hB : 0 < B) {p q : Record size}
    {records : List (Record size)} {bs : List UInt8} (h : BlocksForm q (chunks B records) bs)
    (hp : p = q ∨ records.headD p = p) :
    (blocksBytes p (chunks B records)).length ≤ bs.length := by
  induction records using chunks_induction hB generalizing p q bs with
  | nil =>
    rw [chunks_nil hB]
    exact Nat.zero_le _
  | step records hne ih =>
    -- The two predictors may differ in the first block only; behind it both are its last record.
    rw [chunks_of_ne_nil hB hne] at h ⊢
    obtain ⟨u, v, hu, hv, rfl⟩ := h
    have hnonempty : records.take B ≠ [] := by simpa using ⟨Nat.pos_iff_ne_zero.1 hB, hne⟩
    have hhead : (records.take B).headD p = records.headD p := by
      rw [List.headD_eq_head?_getD, List.head?_take, if_neg (Nat.pos_iff_ne_zero.1 hB),
        List.headD_eq_head?_getD]
    have hlast : (records.take B).getLastD p = (records.take B).getLastD q := by
      rw [List.getLastD_eq_getLast?, List.getLast?_eq_some_getLast hnonempty,
        List.getLastD_eq_getLast?, List.getLast?_eq_some_getLast hnonempty]
      rfl
    rw [← hhead] at hp
    have hblock := Block.bytes_length_le hu hp
    have hrest := ih hv (.inl hlast)
    rw [blocksBytes, List.length_append, List.length_append]
    omega

theorem bodyBytes_length_lt {size : VertexSize} {format : FormatByte}
    {records : List (Record size.val)} {stream : List UInt8}
    (h : StreamForm size format records stream) : (bodyBytes records).length < stream.length := by
  obtain ⟨body, tail, _, hform, htail, rfl⟩ := h
  have hfirst : records.headD (firstRecord records) = firstRecord records := by
    cases records with
    | nil => rfl
    | cons r rs => rfl
  have hbody := blocksBytes_length_le (Layout.blockLength_pos size) hform (.inr hfirst)
  have hown := tailBytes_length (firstRecord records).toList
  rw [Vector.length_toList] at hown
  rw [bodyBytes, List.length_append, List.length_cons, List.length_append]
  omega

variable {σ : Type} {obs : Observer σ} {observed : σ} {version : UInt8} {count size : Nat}
  {out stream destination : List UInt8} {d : Decoded}

/-- What a stream was decoded to has itself a stream that is not longer. -/
theorem streamLength_le_of_decodeInto (h : decodeInto out count size stream = .ok d)
    (hversion : version ≤ FormatByte.maxVersion) :
    Admissible version count size (d.bytes.take (count * size)) ∧
      streamLength count size (d.bytes.take (count * size)) ≤ stream.length := by
  obtain ⟨size, rfl, hlimit, hout, ⟨format, records⟩, r, hread, rfl⟩ :=
    VertexBuffer.of_decodeInto_eq_ok h
  obtain ⟨hcount, hform⟩ := streamForm_of_read_eq_ok hread
  have hflatten : (Record.flatten records).length = count * size.val := by
    rw [Record.flatten_length, hcount]
  have hadmissible : Admissible version count size.val (Record.flatten records) :=
    ⟨size.valid, hversion, hlimit, Nat.le_of_eq hflatten.symm⟩
  rw [Decoded.close, List.take_left' hflatten]
  refine ⟨hadmissible, ?_⟩
  rw [← streamBytes_length hadmissible, streamBytes, List.length_cons, Record.split_flatten hcount]
  exact bodyBytes_length_lt hform

theorem drop_of_decodeInto (h : decodeInto out count size stream = .ok d) :
    count * size ≤ out.length ∧ d.bytes.drop (count * size) = out.drop (count * size) := by
  obtain ⟨size, rfl, -, hout, ⟨format, records⟩, r, hread, rfl⟩ :=
    VertexBuffer.of_decodeInto_eq_ok h
  refine ⟨hout, List.drop_left' ?_⟩
  rw [Record.flatten_length, (streamForm_of_read_eq_ok hread).1]

/-- Encoding what a stream was decoded to, in any destination that holds the stream, takes no more
bytes than the stream has. These bytes are decoded to the same again where decoders know the
version, and the version is in the first of them alone. -/
theorem encode_le_of_decodeInto (h : decodeInto out count size stream = .ok d)
    (hversion : version ≤ 15) :
    (stream.length ≤ destination.length → ∃ len s,
      encode obs version count size (d.bytes.take (count * size)) (.start destination observed) =
        .ok len s) ∧
    ∀ len s, encode obs version count size (d.bytes.take (count * size))
      (.start destination observed) = .ok len s →
      len ≤ stream.length ∧
      (version ≤ 1 → ∃ d', decodeInto out count size (s.writer.destination.take len) = .ok d' ∧
        d'.bytes = d.bytes) ∧
      ∀ version' ≤ 15, ∃ s', encode obs version' count size (d.bytes.take (count * size))
          (.start destination observed) = .ok len s' ∧
        s'.writer.destination.drop 1 = s.writer.destination.drop 1 := by
  obtain ⟨hadmissible, hle⟩ := streamLength_le_of_decodeInto h hversion
  obtain ⟨hout, hdrop⟩ := drop_of_decodeInto h
  constructor
  · intro hroom
    obtain ⟨s, hs, _⟩ := encode_of_le obs observed hadmissible (Nat.le_trans hle hroom)
    exact ⟨_, s, hs⟩
  · intro len s hs
    obtain ⟨_, rfl, _⟩ := of_encode_eq_ok obs observed hs
    refine ⟨hle, fun hknown => ?_, fun version' hversion' => encode_other_version hs hversion'⟩
    obtain ⟨d', hd', hbytes⟩ := decodeInto_streamBytes_of_le hadmissible hout hknown
    rw [take_of_encode_eq_ok obs observed hs]
    refine ⟨d', hd', ?_⟩
    rw [hbytes, List.take_take, Nat.min_self, ← hdrop, List.take_append_drop]

/-- A stream of 53 bytes that stores one delta verbatim, with junk behind it, and starts from
another record than the first. -/
theorem encode_le_of_decodeInto_verbatim :
    ∃ len s d', encode Observer.silent 1 1 4 [6, 6, 7, 8] (.start (List.replicate 60 0) ()) =
        .ok len s ∧
      len ≤ ([0xA0, 0xFF] ++ (2 :: List.replicate 15 7) ++ [0, 0, 0] ++ List.replicate 28 1 ++
        [5, 6, 7, 8] : List UInt8).length ∧
      decodeInto (List.replicate 5 9) 1 4 (s.writer.destination.take len) = .ok d' ∧
      d'.bytes = [6, 6, 7, 8, 9] := by
  have hdecode : decodeInto (List.replicate 5 9) 1 4 ([0xA0, 0xFF] ++ (2 :: List.replicate 15 7) ++
      [0, 0, 0] ++ List.replicate 28 1 ++ [5, 6, 7, 8]) =
        .ok ⟨[6, 6, 7, 8, 9], [.decoded 1 4 53 0]⟩ := by with_unfolding_all rfl
  have hversion : (1 : UInt8) ≤ 15 := by decide
  have hlength : 53 ≤ (List.replicate 60 (0 : UInt8)).length := by decide
  obtain ⟨hroom, hencode⟩ := encode_le_of_decodeInto hdecode hversion
  obtain ⟨len, s, hs⟩ := hroom hlength
  obtain ⟨hle, hagain, -⟩ := hencode len s hs
  obtain ⟨d', hd', hbytes⟩ := hagain (by decide)
  exact ⟨len, s, d', hs, hle, hd', hbytes⟩

end DeltaStream
end VertexPack
