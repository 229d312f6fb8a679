import VertexPack.Proofs.Grammar
import VertexPack.Proofs.Shift

/-! A delta stream of which the tail is replaced. The blocks stay where they are, so the stream is
still accepted; only the record that they are predicted from is another one. -/
namespace VertexPack.DeltaStream
variable {size : VertexSize} {count : Nat} {out stream tail : List UInt8}

/-- A stream with other bytes in the place of its last ones. -/
def withTail (stream tail : List UInt8) : List UInt8 :=
  stream.take (stream.length - tail.length) ++ tail

theorem withTail_append (front old : List UInt8) (h : tail.length = old.length) :
    withTail (front ++ old) tail = front ++ tail := by
  rw [withTail, h, List.length_append, Nat.add_sub_cancel, List.take_left]

def lastByte (size : Nat) (stream : List UInt8) (k : Nat) : UInt8 :=
  stream.getD (stream.length - size + k) 0

theorem read_withTail {format : FormatByte} {records : List (Record size.val)} {r : Reader}
    (hread : read size count (.ofBytes stream) = .ok (format, records) r)
    (htail : tail.length = Layout.tailSize size.val) :
    (withTail stream tail).length = stream.length ∧
      ∃ e : Record size.val,
        (∀ k, e.get k = lastByte size.val (withTail stream tail) k - lastByte size.val stream k) ∧
        ∃ r', read size count (.ofBytes (withTail stream tail)) =
          .ok (format, records.map (Record.shift e)) r' := by
  obtain ⟨blocks, old, hversion, hstores, hold, hstream⟩ := read_eq_ok_iff_blocks.1 ⟨r, hread⟩
  have hnew : withTail stream tail = format.raw :: (blocks.bytes ++ tail) := by
    rw [hstream, ← List.cons_append, withTail_append _ _ (htail.trans hold.symm), List.cons_append]
  -- The blocks are predicted from the new seed, which is the old one with the difference added.
  have hshift := hstores.shift
    (Record.difference (seed size (withTail stream tail)) (seed size stream))
  rw [Record.shift_difference] at hshift
  refine ⟨?_, _, fun k => ?_, read_eq_ok_iff_blocks.2 ⟨blocks, tail, hversion, hshift, htail, hnew⟩⟩
  · rw [hnew, hstream]
    simp only [List.length_cons, List.length_append, htail, hold]
  · rw [Record.get_difference, get_seed, get_seed, lastByte, lastByte]

/-- Other bytes in the place of a tail leave a stream that is accepted, and move each byte of every
record by what the byte at its offset in the last record of the tail has moved. The padding in
front of that record has no say. -/
theorem decodeInto_withTail {size count : Nat} {out stream tail : List UInt8} {d : Decoded}
    (h : decodeInto out count size stream = .ok d) (htail : tail.length = Layout.tailSize size) :
    (withTail stream tail).length = stream.length ∧
      ∃ d', decodeInto out count size (withTail stream tail) = .ok d' ∧
        d'.bytes.length = d.bytes.length ∧
        d'.bytes.drop (count * size) = d.bytes.drop (count * size) ∧
        (∀ i < count, ∀ k < size, d'.bytes.getD (i * size + k) 0 =
          d.bytes.getD (i * size + k) 0 +
            (lastByte size (withTail stream tail) k - lastByte size stream k)) ∧
        ((∀ k < size, lastByte size (withTail stream tail) k = lastByte size stream k) →
          d' = d) := by
  obtain ⟨size, rfl, hlim, hout, ⟨format, records⟩, r, hread, rfl⟩ :=
    VertexBuffer.of_decodeInto_eq_ok h
  obtain ⟨hlength, e, he, r', hread'⟩ := read_withTail hread htail
  have hcount : records.length = count := (read_eq_ok_iff.1 ⟨r, hread⟩).1
  refine ⟨hlength, _, VertexBuffer.decodeInto_of_read_ok hlim hout hread', ?_, ?_, ?_, ?_⟩
  · simp only [Decoded.close, List.length_append, Record.flatten_length, List.length_map]
  · rw [Decoded.close, Decoded.close,
      List.drop_left' (by rw [Record.flatten_length, List.length_map, hcount]),
      List.drop_left' (by rw [Record.flatten_length, hcount])]
  · intro i hi k hk
    rw [← he ⟨k, hk⟩]
    exact Record.byteAt_flatten_shift e (out.drop (count * size.val)) ⟨k, hk⟩ (hcount ▸ hi)
  · intro hsame
    have hzero (k : Fin size.val) : e.get k = 0 := by
      rw [he, hsame k k.isLt, UInt8.sub_self]
    have hshift (r : Record size.val) (_ : r ∈ records) := Record.shift_of_get_eq_zero hzero r
    rw [Decoded.close, Decoded.close, List.map_congr_left hshift, List.map_id', hlength]

theorem decodeInto_withTail_escaped :
    ∃ d', decodeInto (List.replicate 5 9) 1 4
        (withTail ([0xA1, 1, 0xC0, 0, 0, 0, 200, 0xFC, 0, 0] ++
          List.replicate 28 9 ++ [5, 6, 7, 8]) (List.replicate 28 1 ++ [5, 2, 7, 8])) = .ok d' ∧
      d'.bytes.getD 0 0 = 105 ∧ d'.bytes.getD 1 0 = 2 := by
  have hdecode : decodeInto (List.replicate 5 9) 1 4 ([0xA1, 1, 0xC0, 0, 0, 0, 200, 0xFC, 0, 0] ++
      List.replicate 28 9 ++ [5, 6, 7, 8]) =
        .ok ⟨[105, 6, 7, 8, 9], [.decoded 1 4 42 1]⟩ := by with_unfolding_all rfl
  have htail : (List.replicate 28 (1 : UInt8) ++ [5, 2, 7, 8]).length = Layout.tailSize 4 := by
    decide
  obtain ⟨_, d', hd', _, _, hbytes, _⟩ := decodeInto_withTail hdecode htail
  exact ⟨d', hd', hbytes 0 (by decide) 0 (by decide), hbytes 0 (by decide) 1 (by decide)⟩

end VertexPack.DeltaStream
