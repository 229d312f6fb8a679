import VertexPack.Proofs.PlaneProjection
import VertexPack.Proofs.RoundTrip

/-! From raw input to a record set, from there to a stream in either format, and back. What comes
back are the records of the input, as far as they were kept. -/
namespace VertexPack.RecordSet

section Bytes
variable {stride kept count : Nat} {input : List UInt8}

end Bytes

section Stream
variable {count stride : Nat} {data stream : List UInt8} {version : UInt8}

theorem mul_eq_some (hroom : count * stride ≤ Work.maxAllocation) :
    Capacity.mul count stride = some (count * stride) :=
  Capacity.checked_eq_some_iff.2 ⟨Nat.lt_of_le_of_lt hroom (by decide), rfl⟩

theorem decode_delta_of_eq_ok {d : DeltaStream.Decoded}
    (hroom : count * stride ≤ Work.maxAllocation)
    (h : DeltaStream.decode count stride stream = .ok d) (notices : List Notice) :
    decode stream stride count .delta notices = .ok d.bytes (notices ++ d.notices) := by
  rw [decode, mul_eq_some hroom]
  dsimp only
  rw [bind_of_ok (Work.allocate_of_le hroom notices), Work.bind_of_eq_ok h]
  rfl

theorem decode_planes_of_eq_ok {bytes : List UInt8} (hroom : count * stride ≤ Work.maxAllocation)
    (h : PlaneStream.decode count stride stream = .ok bytes) (notices : List Notice) :
    decode stream stride count .planes notices = .ok bytes notices := by
  rw [decode, mul_eq_some hroom]
  dsimp only
  rw [bind_of_ok (Work.allocate_of_le hroom notices), h]
  rfl

end Stream

section RoundTrip
variable {size : VertexSize} {count : Nat} {data : List UInt8} {version : UInt8}

theorem worstLength_le_maxAllocation (h : count * size.val < Capacity.limit / 4) :
    Layout.worstLength count size.val ≤ Work.maxAllocation ∧
      PlaneStream.worstLength count size.val ≤ Work.maxAllocation := by
  have hdelta := Layout.worstLength_le count size
  have hplanes := PlaneStream.worstLength_le count size
  unfold Capacity.limit at h
  unfold Layout.blockBudget at hdelta
  unfold Work.maxAllocation Capacity.limit
  omega

theorem encode_delta_of_le (hversion : version ≤ FormatByte.maxVersion)
    (hdata : count * size.val ≤ data.length)
    (hroom : Layout.worstLength count size.val ≤ Work.maxAllocation) (notices : List Notice) :
    ∃ notices', encode ⟨data, size.val, count⟩ .delta version notices =
      .ok (DeltaStream.streamBytes version count size.val data) notices' := by
  obtain ⟨_, notices', hrun⟩ :=
    encodeObserved_of_le hversion hdata hroom Observer.silent () notices
  refine ⟨notices', ?_⟩
  rw [encode, bind_of_ok hrun]
  rfl

section Format
variable (hdata : data.length = count * size.val) (hlimit : count * size.val < Capacity.limit / 4)
include hdata hlimit

theorem decode_encode_delta (hversion : version ≤ FormatByte.maxDecodeVersion)
    (notices : List Notice) :
    ∃ stream notices',
      encode ⟨data, size.val, count⟩ .delta version notices = .ok stream notices' ∧
        ∀ n, ∃ n', decode stream size.val count .delta n = .ok data n' := by
  have hroom := (worstLength_le_maxAllocation hlimit).1
  have hlen : count * size.val ≤ Work.maxAllocation :=
    Nat.le_trans (DeltaStream.mul_le_worstLength (Layout.blockLength_pos size)) hroom
  have hlim : count * size.val < Capacity.limit := Nat.lt_of_le_of_lt hlen (by decide)
  have hadmissible : DeltaStream.Admissible version count size.val data :=
    ⟨size.valid, UInt8.le_trans hversion (by decide), hlim, Nat.le_of_eq hdata.symm⟩
  obtain ⟨notices', hrun⟩ :=
    encode_delta_of_le hadmissible.version_le hadmissible.le_length hroom notices
  obtain ⟨format, r, hread⟩ := DeltaStream.read_streamBytes_of_le hadmissible hversion
  have hbytes : Record.flatten (Record.split size.val count data) = data := by
    rw [Record.flatten_split hadmissible.le_length, ← hdata, List.take_length]
  have hdecode := decode_delta_of_eq_ok hlen (VertexBuffer.decode_of_read_ok hlim hread)
  rw [DeltaStream.Decoded.close, hbytes, List.append_nil] at hdecode
  exact ⟨_, notices', hrun, fun n => ⟨_, hdecode n⟩⟩

theorem decode_encode_planes (version : UInt8) (notices : List Notice) :
    ∃ stream notices',
      encode ⟨data, size.val, count⟩ .planes version notices = .ok stream notices' ∧
        ∀ n, ∃ n', decode stream size.val count .planes n = .ok data n' := by
  have hroom := (worstLength_le_maxAllocation hlimit).2
  have hlen : count * size.val ≤ Work.maxAllocation :=
    Nat.le_trans (PlaneStream.mul_le_worstLength size.four_dvd) hroom
  have hlim : count * size.val < Capacity.limit := Nat.lt_of_le_of_lt hlen (by decide)
  obtain ⟨notices', hrun⟩ := encode_planes_of_le (Nat.le_of_eq hdata.symm) hroom version notices
  have hbytes := PlaneStream.decode_streamBytes (Nat.le_of_eq hdata.symm) hlim
  rw [← hdata, List.take_length] at hbytes
  exact ⟨_, notices', hrun, fun n => ⟨n, decode_planes_of_eq_ok hlen hbytes n⟩⟩

theorem decode_encode (format : StreamFormat) (hversion : format = .delta → version ≤ 1)
    (notices : List Notice) :
    ∃ stream notices',
      encode ⟨data, size.val, count⟩ format version notices = .ok stream notices' ∧
        ∀ n, ∃ n', decode stream size.val count format n = .ok data n' := by
  cases format with
  | delta => exact decode_encode_delta hdata hlimit (hversion rfl) notices
  | planes => exact decode_encode_planes hdata hlimit version notices

end Format

end RoundTrip
end VertexPack.RecordSet
