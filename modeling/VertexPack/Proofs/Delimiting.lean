import VertexPack.Proofs.Blocks
import VertexPack.Proofs.Exhaustion
import VertexPack.Proofs.PlaneForm

/-! An accepted stream tells its own end. What a cut or an addition does to the end of a delta
stream changes the record that its blocks are predicted from, but not where they end. -/
namespace VertexPack

namespace PlaneStream
variable {size : VertexSize} {count : Nat} {cut : Cut size.val count}
  {records : List (Record size.val)}

theorem decodeColumns_failsOnly (size : VertexSize) (count : Nat) :
    FailsOnly (CursorError.IsShortOf 4) (decodeColumns size count) :=
  (FailsOnly.ofFnM fun _ => decodeColumn_failsOnly count).map

theorem read_front {u t : List UInt8} (ht : t ≠ []) (h : cut.bytes = u ++ t) :
    ∃ e r, read size count (.ofBytes u) = .error e r ∧ e.IsTruncated := by
  cases hrun : decodeColumns size count (.ofBytes u) with
  | ok found r =>
    obtain ⟨_, ⟨cut', _, rfl⟩, hmove⟩ := (decodeColumns_reads (h := 0) size count).sound hrun
    have hu : u = cut'.bytes ++ r.rest := hmove.rest_eq
    have heq : cut.bytes ++ [] = cut'.bytes ++ (r.rest ++ t) := by
      rw [List.append_nil, h, hu, List.append_assoc]
    exact absurd (List.append_eq_nil_iff.1 (Cut.bytes_append_inj heq).2.symm).2 ht
  | error e r =>
    have he := (decodeColumns_failsOnly size count _ _ _ hrun).isShort.isTruncated
    exact ⟨_, r, read_of_decodeColumns_error hrun, he⟩

theorem read_append (hstores : cut.Stores records) {t : List UInt8} (ht : t ≠ []) :
    ∃ r, read size count (.ofBytes (cut.bytes ++ t)) = .error (.trailingData 0 t.length) r := by
  obtain ⟨r, hrun, hrest⟩ := decodeColumns_append hstores t
  refine ⟨r, ?_⟩
  rw [read_of_decodeColumns_ok hrun, hrest, if_neg ht, Reader.remaining, hrest]

end PlaneStream

namespace DeltaStream
variable {size : VertexSize} {count : Nat}

theorem remaining_ne_of_decodeBlocks {p : Record size.val} {records : List (Record size.val)}
    {blocks : Blocks size.val count} {tail t : List UInt8} {r r' : Reader}
    (htail : tail.length = Layout.tailSize size.val) (ht : t ≠ [])
    (h : blocks.bytes ++ tail = r.rest ++ t)
    (hrun : decodeBlocks (ceilDiv count (Layout.blockLength size.val)) count p r =
      .ok records r') : r'.remaining ≠ Layout.tailSize size.val := by
  intro hleft
  have hB := Layout.blockLength_pos size
  have hroom := Layout.headroom_le_tailSize size.val
  obtain ⟨_, ⟨blocks', _, rfl⟩, hmove⟩ := (decodeBlocks_reads_blocks hB p).sound hrun
  rw [hmove.rest_eq, List.append_assoc] at h
  have hlong : r'.rest.length = Layout.tailSize size.val := hleft
  have hlonger : (r'.rest ++ t).length = Layout.tailSize size.val + t.length := by
    rw [List.length_append, hlong]
  -- Both have the same blocks, so what was cut off is missing from the tail.
  obtain ⟨_, rfl⟩ := Blocks.bytes_append_inj hB (by omega) (by omega) h
  exact ht (List.eq_nil_of_length_eq_zero (by omega))

/-- A stream that was cut off ends before its blocks do, or has too short a tail. -/
theorem read_front {format : FormatByte} {blocks : Blocks size.val count} {tail u t : List UInt8}
    (hversion : format.version ≤ FormatByte.maxDecodeVersion)
    (htail : tail.length = Layout.tailSize size.val) (ht : t ≠ [])
    (h : format.raw :: (blocks.bytes ++ tail) = u ++ t) :
    ∃ e r, read size count (.ofBytes u) = .error e r ∧
      (e.IsTruncated ∨ ∃ found, e = .trailingData (Layout.tailSize size.val) found) := by
  by_cases hshort : u.length < 1 + size.val
  · exact ⟨_, _, read_of_lt hshort, .inl ⟨_, _, rfl, hshort⟩⟩
  · cases u with
    | nil =>
      rw [List.length_nil] at hshort
      omega
    | cons f u =>
      rw [List.cons_append, List.cons.injEq] at h
      obtain ⟨rfl, hbody⟩ := h
      rw [List.length_cons] at hshort
      have hlen : size.val ≤ u.length := by omega
      obtain ⟨r, rfl, hread⟩ := read_cons count hversion hlen
      rw [hread]
      cases hrun : decodeBlocks (ceilDiv count (Layout.blockLength size.val)) count
          (seed size (format.raw :: r.rest)) r with
      | error e r' =>
        rw [bind_of_error (readBlocks_of_decodeBlocks_error hrun)]
        exact ⟨e, r', rfl, .inl (decodeBlocks_failsOnly _ _ _ _ _ _ hrun)⟩
      | ok records r' =>
        have hleft := remaining_ne_of_decodeBlocks htail ht hbody hrun
        rw [bind_of_error ((readBlocks_of_decodeBlocks_ok hrun).trans (if_neg hleft))]
        exact ⟨_, r', rfl, .inr ⟨_, rfl⟩⟩

theorem read_append {format : FormatByte} (blocks : Blocks size.val count) {tail t : List UInt8}
    (hversion : format.version ≤ FormatByte.maxDecodeVersion)
    (htail : tail.length = Layout.tailSize size.val) (ht : t ≠ []) :
    ∃ r, read size count (.ofBytes (format.raw :: (blocks.bytes ++ tail) ++ t)) = .error
      (.trailingData (Layout.tailSize size.val) (Layout.tailSize size.val + t.length)) r := by
  have hroom := Layout.headroom_le_tailSize size.val
  have hsize := Layout.size_le_tailSize size.val
  have hpos := List.length_pos_iff.2 ht
  rw [List.cons_append, List.append_assoc]
  have hlen : size.val ≤ (blocks.bytes ++ (tail ++ t)).length := by
    simp only [List.length_append]
    omega
  obtain ⟨r, hrest, hread⟩ := read_cons count hversion hlen
  obtain ⟨r', hmove, hrest'⟩ := Reader.exists_moves hrest
  have hleft : r'.remaining = Layout.tailSize size.val + t.length := by
    rw [Reader.remaining, hrest', List.length_append, htail]
  -- The record at the end is another one, but the same blocks can be predicted from it.
  obtain ⟨records, hstores⟩ :=
    blocks.exists_stores (seed size (format.raw :: (blocks.bytes ++ (tail ++ t))))
  have hrun := (decodeBlocks_reads_blocks (Layout.blockLength_pos size) _).complete
    ⟨blocks, hstores, rfl⟩ hmove (by omega)
  refine ⟨r', ?_⟩
  rw [hread, bind_of_error ((readBlocks_of_decodeBlocks_ok hrun).trans (if_neg (by omega))), hleft]

end DeltaStream

section
variable {count size : Nat} {out stream : List UInt8}

/-- No stream that is accepted begins with another one, and how the streams around it are refused
is known: too short a stream ends before its blocks or before its tail does, and what is added to
a stream is found behind it. -/
theorem accepted_self_delimiting :
    (∀ d, DeltaStream.decodeInto out count size stream = .ok d →
      (∀ u, u <+: stream → u ≠ stream → ∃ e, DeltaStream.decodeInto out count size u = .error e ∧
        ((∃ needed available, e = .truncated needed available) ∨
          ∃ expected found, e = .trailingData expected found)) ∧
      ∀ t, t ≠ [] → DeltaStream.decodeInto out count size (stream ++ t) =
        .error (.trailingData (Layout.tailSize size) (Layout.tailSize size + t.length))) ∧
    ∀ bytes, PlaneStream.decodeInto out count size stream = .ok bytes →
      (∀ u, u <+: stream → u ≠ stream → ∃ needed available,
        PlaneStream.decodeInto out count size u = .error (.truncated needed available)) ∧
      ∀ t, t ≠ [] → PlaneStream.decodeInto out count size (stream ++ t) =
        .error (.trailingData 0 t.length) := by
  have hcut {u : List UInt8} (hu : u <+: stream) (hne : u ≠ stream) :
      ∃ t, t ≠ [] ∧ stream = u ++ t := by
    obtain ⟨t, rfl⟩ := hu
    exact ⟨t, fun ht => hne (by rw [ht, List.append_nil]), rfl⟩
  constructor
  · intro d h
    obtain ⟨size, rfl, hlim, hout, ⟨format, records⟩, r, hread, -⟩ :=
      VertexBuffer.of_decodeInto_eq_ok h
    obtain ⟨blocks, tail, hversion, _, htail, rfl⟩ :=
      DeltaStream.read_eq_ok_iff_blocks.1 ⟨r, hread⟩
    constructor
    · intro u hu hne
      obtain ⟨t, ht, hstream⟩ := hcut hu hne
      obtain ⟨e, r, hread, herror⟩ := DeltaStream.read_front hversion htail ht hstream
      refine ⟨e, VertexBuffer.decodeInto_of_read_error hlim hout hread, ?_⟩
      rcases herror with htruncated | htrailing
      · obtain ⟨needed, available, rfl, _⟩ := htruncated
        exact .inl ⟨needed, available, rfl⟩
      · obtain ⟨found, rfl⟩ := htrailing
        exact .inr ⟨_, found, rfl⟩
    · intro t ht
      obtain ⟨r, hread⟩ := DeltaStream.read_append blocks hversion htail ht
      exact VertexBuffer.decodeInto_of_read_error hlim hout hread
  · intro bytes h
    obtain ⟨size, rfl, hlim, hout, cut, records, hstores, rfl, _⟩ :=
      PlaneStream.of_decodeInto_eq_ok h
    constructor
    · intro u hu hne
      obtain ⟨t, ht, hstream⟩ := hcut hu hne
      obtain ⟨e, r, hread, needed, available, rfl, _⟩ := PlaneStream.read_front ht hstream
      exact ⟨needed, available, VertexBuffer.decodeInto_of_read_error hlim hout hread⟩
    · intro t ht
      obtain ⟨r, hread⟩ := PlaneStream.read_append hstores ht
      exact VertexBuffer.decodeInto_of_read_error hlim hout hread

theorem accepted_self_delimiting_one_record :
    (∃ e, DeltaStream.decodeInto [9, 9, 9, 9] 1 4 ([0xA0, 0, 0, 0, 0] ++ List.replicate 31 1) =
        .error e ∧ ((∃ needed available, e = .truncated needed available) ∨
          ∃ expected found, e = .trailingData expected found)) ∧
      DeltaStream.decodeInto [9, 9, 9, 9] 1 4 ([0xA0, 0, 0, 0, 0] ++ List.replicate 32 1 ++ [7]) =
        .error (.trailingData 32 33) ∧
      (∃ needed available, PlaneStream.decodeInto [9, 9, 9, 9] 1 4 [0, 0, 0] =
        .error (.truncated needed available)) ∧
      PlaneStream.decodeInto [9, 9, 9, 9] 1 4 ([0, 0, 0, 0] ++ [7]) =
        .error (.trailingData 0 1) := by
  have hdelta : DeltaStream.decodeInto [9, 9, 9, 9] 1 4 ([0xA0, 0, 0, 0, 0] ++
      List.replicate 32 1) = .ok ⟨[1, 1, 1, 1], [.decoded 1 4 37 0]⟩ := by with_unfolding_all rfl
  have hplane : PlaneStream.decodeInto [9, 9, 9, 9] 1 4 [0, 0, 0, 0] = .ok [0, 0, 0, 0] := by
    with_unfolding_all rfl
  obtain ⟨hfront, happend⟩ := accepted_self_delimiting.1 _ hdelta
  obtain ⟨hfront', happend'⟩ := accepted_self_delimiting.2 _ hplane
  exact ⟨hfront _ (by decide) (by decide), happend [7] (by decide),
    hfront' _ (by decide) (by decide), happend' [7] (by decide)⟩

end
end VertexPack
