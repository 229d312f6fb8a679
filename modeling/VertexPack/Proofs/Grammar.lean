import VertexPack.Proofs.Admission
import VertexPack.Proofs.Blocks

/-! The strings that a decoder of delta streams accepts, and the bytes that it finds in them. -/
namespace VertexPack

theorem Delta.getD_decode (p : UInt8) (ds : List UInt8) {i : Nat} (hi : i < ds.length) :
    (decode p ds).getD i 0 = ((ds.take (i + 1)).map unzigzag).foldl (· + ·) p := by
  induction ds generalizing p i with
  | nil => simp at hi
  | cons d ds ih =>
    cases i with
    | zero => simp [decode]
    | succ i =>
      rw [List.length_cons, Nat.succ_lt_succ_iff] at hi
      rw [decode, List.getD_cons_succ, ih _ hi, List.take_succ_cons, List.map_cons, List.foldl_cons]

namespace DeltaStream

def middle (size : Nat) (stream : List UInt8) : List UInt8 :=
  (stream.take (stream.length - Layout.tailSize size)).drop 1

theorem middle_cons_append {size : Nat} (f : UInt8) (body : List UInt8) {tail : List UInt8}
    (h : tail.length = Layout.tailSize size) : middle size (f :: (body ++ tail)) = body := by
  have hlen : (f :: (body ++ tail)).length - Layout.tailSize size = (f :: body).length := by
    rw [← h, ← List.cons_append, List.length_append, Nat.add_sub_cancel]
  rw [middle, hlen, ← List.cons_append, List.take_left]
  rfl

theorem eq_cons_middle_append {size : Nat} {f : UInt8} {stream : List UInt8}
    (hlen : 1 + Layout.tailSize size ≤ stream.length) (hhead : stream.head? = some f) :
    ∃ tail, tail.length = Layout.tailSize size ∧ stream = f :: (middle size stream ++ tail) := by
  obtain ⟨rest, rfl⟩ := List.head?_eq_some_iff.1 hhead
  rw [List.length_cons] at hlen
  have hsplit := List.take_append_drop (rest.length - Layout.tailSize size) rest
  have htail : (rest.drop (rest.length - Layout.tailSize size)).length = Layout.tailSize size := by
    rw [List.length_drop]
    omega
  refine ⟨_, htail, ?_⟩
  have hmiddle := middle_cons_append f (rest.take (rest.length - Layout.tailSize size)) htail
  rw [hsplit] at hmiddle
  rw [hmiddle, hsplit]

theorem exists_raw_iff (f : UInt8) :
    (∃ format : FormatByte, format.version ≤ FormatByte.maxDecodeVersion ∧ f = format.raw) ↔
      f = 0xA0 ∨ f = 0xA1 := by
  constructor
  · intro h
    obtain ⟨⟨v, hv⟩, hversion, rfl⟩ := h
    obtain ⟨a, rfl⟩ := Width.exists_fin_of_le hversion
    revert a
    decide
  · intro h
    rcases h with rfl | rfl
    · exact ⟨⟨0, by decide⟩, by decide, rfl⟩
    · exact ⟨⟨1, by decide⟩, by decide, rfl⟩

theorem get_seed (size : VertexSize) (stream : List UInt8) (k : Fin size.val) :
    (seed size stream).get k = stream.getD (stream.length - size.val + k) 0 := by
  simp [seed, Record.ofList, get_eq_getElem, List.getD_eq_getElem?_getD, List.getElem?_drop]

section
variable {size : VertexSize} {count : Nat} {out stream : List UInt8}

theorem accepted_iff (hlim : count * size.val < Capacity.limit)
    (hout : count * size.val ≤ out.length) :
    (∃ d, decodeInto out count size.val stream = .ok d) ↔
      1 + Layout.tailSize size.val ≤ stream.length ∧
        (stream.head? = some 0xA0 ∨ stream.head? = some 0xA1) ∧
        ∃ blocks : Blocks size.val count, middle size.val stream = blocks.bytes := by
  constructor
  · rintro ⟨d, hd⟩
    obtain ⟨⟨format, records⟩, r, hread, -⟩ :=
      (VertexBuffer.decodeInto_eq_ok_iff hlim hout).1 hd
    obtain ⟨blocks, tail, hversion, _, htail, rfl⟩ := read_eq_ok_iff_blocks.1 ⟨r, hread⟩
    refine ⟨?_, ?_, blocks, middle_cons_append _ _ htail⟩
    · simp [htail]
      omega
    · simpa using (exists_raw_iff _).1 ⟨format, hversion, rfl⟩
  · intro hform
    obtain ⟨hlen, hhead, blocks, hblocks⟩ := hform
    obtain ⟨f, hf, hraw⟩ : ∃ f, stream.head? = some f ∧ (f = 0xA0 ∨ f = 0xA1) := by
      rcases hhead with hhead | hhead
      · exact ⟨_, hhead, .inl rfl⟩
      · exact ⟨_, hhead, .inr rfl⟩
    obtain ⟨format, hversion, rfl⟩ := (exists_raw_iff f).2 hraw
    obtain ⟨tail, htail, hstream⟩ := eq_cons_middle_append hlen hf
    obtain ⟨records, hstores⟩ := blocks.exists_stores (seed size stream)
    rw [hblocks] at hstream
    obtain ⟨r, hread⟩ :=
      read_eq_ok_iff_blocks.2 ⟨blocks, tail, hversion, hstores, htail, hstream⟩
    exact ⟨_, VertexBuffer.decodeInto_of_read_ok hlim hout hread⟩

/-- What is decoded is a running sum over the deltas of a channel, from a byte at the end of the
stream on. -/
theorem byteAt_of_decodeInto (hlim : count * size.val < Capacity.limit)
    (hout : count * size.val ≤ out.length) {d : Decoded}
    (h : decodeInto out count size.val stream = .ok d) {blocks : Blocks size.val count}
    (hblocks : middle size.val stream = blocks.bytes) {i : Nat} (hi : i < count)
    (k : Fin size.val) :
    Record.byteAt size.val d.bytes i k =
      (((blocks.values k).take (i + 1)).map Delta.unzigzag).foldl (· + ·)
        (stream.getD (stream.length - size.val + k) 0) := by
  obtain ⟨⟨format, records⟩, r, hread, rfl⟩ := (VertexBuffer.decodeInto_eq_ok_iff hlim hout).1 h
  obtain ⟨found, tail, _, hstores, htail, hstream⟩ := read_eq_ok_iff_blocks.1 ⟨r, hread⟩
  have hroom : Layout.headroom ≤ tail.length := htail ▸ Layout.headroom_le_tailSize size.val
  have hmiddle : found.bytes = blocks.bytes := by
    rw [← hblocks, hstream, middle_cons_append _ _ htail]
  obtain ⟨hvalues, _⟩ := Blocks.bytes_append_inj (Layout.blockLength_pos size) hroom hroom
    (congrArg (· ++ tail) hmiddle)
  have hlen : i < (blocks.values k).length := by rwa [blocks.values_length]
  have hcolumn : Record.column k records =
      Delta.decode ((seed size stream).get k) (blocks.values k) := by
    rw [← hvalues, ← hstores.2 k, Delta.decode_encode]
  rw [Decoded.close, Record.byteAt_flatten_append _ _ _ (hstores.1 ▸ hi), hcolumn,
    Delta.getD_decode _ _ hlen, get_seed]

end

/-- A decoder whose destination holds the records accepts exactly the strings that begin with a
format byte it knows, end with a tail, and are blocks in between. The bytes that it finds depend on
the deltas in the blocks and on the end of the stream, and on nothing that was in the destination.
The length of a destination is a size, and then so is the number of bytes in the records. -/
theorem accepts_exactly_grammar {size : Nat} (hsize : ValidSize size) (count : Nat)
    (out : List UInt8) (hout : count * size ≤ out.length) (hlim : out.length < Capacity.limit)
    (stream : List UInt8) :
    ((∃ d, decodeInto out count size stream = .ok d) ↔
      1 + Layout.tailSize size ≤ stream.length ∧
        (stream.head? = some 0xA0 ∨ stream.head? = some 0xA1) ∧
        ∃ blocks : Blocks size count,
          (stream.take (stream.length - Layout.tailSize size)).drop 1 = blocks.bytes) ∧
    ∀ d, decodeInto out count size stream = .ok d →
      d.bytes.length = out.length ∧ d.bytes.drop (count * size) = out.drop (count * size) ∧
      (∀ blocks : Blocks size count,
        (stream.take (stream.length - Layout.tailSize size)).drop 1 = blocks.bytes →
        ∀ i < count, ∀ k : Fin size, d.bytes.getD (i * size + k) 0 =
          (((blocks.values k).take (i + 1)).map Delta.unzigzag).foldl (· + ·)
            (stream.getD (stream.length - size + k) 0)) ∧
      ∀ out' : List UInt8, count * size ≤ out'.length →
        ∃ d', decodeInto out' count size stream = .ok d' ∧
          d'.bytes.take (count * size) = d.bytes.take (count * size) := by
  obtain ⟨size, rfl⟩ := hsize.exists_size
  have hlim := Nat.lt_of_le_of_lt hout hlim
  refine ⟨accepted_iff hlim hout, fun d hd => ?_⟩
  obtain ⟨⟨format, records⟩, r, hread, hd'⟩ :=
    (VertexBuffer.decodeInto_eq_ok_iff hlim hout).1 hd
  have hbytes : d.bytes = Record.flatten records ++ out.drop (count * size.val) := by
    rw [hd', Decoded.close]
  have hlen : (Record.flatten records).length = count * size.val := by
    rw [Record.flatten_length, (read_eq_ok_iff.1 ⟨r, hread⟩).1]
  refine ⟨?_, ?_, ?_, ?_⟩
  · rw [hbytes, List.length_append, List.length_drop, hlen]
    omega
  · rw [hbytes, List.drop_left' hlen]
  · intro blocks hblocks i hi k
    exact byteAt_of_decodeInto hlim hout hd hblocks hi k
  · intro out' hout'
    refine ⟨_, VertexBuffer.decodeInto_of_read_ok hlim hout' hread, ?_⟩
    rw [hbytes, Decoded.close, List.take_left' hlen, List.take_left' hlen]

/-- One record of which the first byte is stored as an escaped delta, and the others in groups
that take no bytes. The selectors of groups that are not there may be anything. -/
theorem accepts_exactly_grammar_escaped :
    ∃ blocks : Blocks 4 1, [1, 0xC0, 0, 0, 0, 200, 0xFC, 0, 0] = blocks.bytes ∧
      105 = (((blocks.values 0).take 1).map Delta.unzigzag).foldl (· + ·) 5 := by
  have hsize : ValidSize 4 := by decide
  have hdecode : decodeInto (List.replicate 5 9) 1 4 ([0xA1, 1, 0xC0, 0, 0, 0, 200, 0xFC, 0, 0] ++
      List.replicate 28 9 ++ [5, 6, 7, 8]) =
        .ok ⟨[105, 6, 7, 8, 9], [.decoded 1 4 42 1]⟩ := by with_unfolding_all rfl
  obtain ⟨haccepted, hfound⟩ := accepts_exactly_grammar hsize 1 (List.replicate 5 9) (by decide)
    (by decide) ([0xA1, 1, 0xC0, 0, 0, 0, 200, 0xFC, 0, 0] ++ List.replicate 28 9 ++ [5, 6, 7, 8])
  obtain ⟨_, _, blocks, hblocks⟩ := haccepted.1 ⟨_, hdecode⟩
  obtain ⟨_, _, hbytes, _⟩ := hfound _ hdecode
  exact ⟨blocks, hblocks, hbytes blocks hblocks 0 (by decide) 0⟩

end DeltaStream
end VertexPack
