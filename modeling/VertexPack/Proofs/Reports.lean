import VertexPack.Report
import VertexPack.Proofs.CapacityBound
import VertexPack.Proofs.ExactAccount
import VertexPack.Proofs.Partition

/-! Reports on record sets. A report has the account of the stream, and every record set that
leaves room for its stream has one. -/
namespace VertexPack

namespace Work
variable {α : Type} {notices notices' : List Notice}

theorem of_ofExcept_eq_ok {failure : StreamError → Failure} {x : Except StreamError α} {a : α}
    (h : ofExcept failure x notices = .ok a notices') : x = .ok a := by
  cases x with
  | ok b =>
    cases h
    rfl
  | error e => cases h

theorem allocate_of_le {bytes : Nat} (h : bytes ≤ maxAllocation) (notices : List Notice) :
    allocate bytes notices = .ok () notices := by
  rw [allocate, if_pos h]
  rfl

theorem bind_of_eq_ok {β : Type} {failure : StreamError → Failure} {x : Except StreamError α}
    {a : α} {f : α → Work β} (h : x = .ok a) :
    (ofExcept failure x >>= f) notices = f a notices := by
  rw [h]
  rfl

end Work

namespace RecordSet
open DeltaStream
variable {σ : Type} {set : RecordSet} {version : UInt8} {obs : Observer σ} {observed : σ}
  {notices notices' : List Notice}

theorem runEncoder_of_le {capacity : Nat} {encoder : Encoding σ Nat} {bytes : List UInt8}
    (hroom : bytes.length ≤ capacity) (hencoder : Emits bytes encoder)
    (task : Task) (observed : σ) (notices : List Notice) :
    ∃ observed' notices', runEncoder task capacity observed encoder notices =
      .ok (bytes, observed') notices' := by
  rw [← List.length_replicate (n := capacity) (a := (0 : UInt8))] at hroom
  obtain ⟨s, hs, hw⟩ := hencoder.fits (.start (List.replicate capacity 0) observed) hroom
  have hwritten : s.writer.written.toList = bytes := by
    rw [hw, Writer.written_push]
    rfl
  refine ⟨s.observed, notices ++ s.notices, ?_⟩
  rw [runEncoder, hs, ← hwritten]
  rfl

theorem of_encodeObserved_eq_ok {result : List UInt8 × σ}
    (h : set.encodeObserved .delta version obs observed notices = .ok result notices') :
    ∃ destination len s, DeltaStream.encode obs version set.count set.stride set.data
      (.start destination observed) = .ok len s ∧ result.2 = s.observed := by
  rw [encodeObserved] at h
  obtain ⟨capacity, _, _, h⟩ := bind_eq_ok_iff.1 h
  obtain ⟨_, _, _, h⟩ := bind_eq_ok_iff.1 h
  obtain ⟨job, _, hjob, h⟩ := bind_eq_ok_iff.1 h
  refine ⟨List.replicate capacity 0, ?_⟩
  rw [encode_of_prepare_ok (Work.of_ofExcept_eq_ok hjob)]
  rw [runEncoder] at h
  cases hrun : job.encode obs (.start (List.replicate capacity 0) observed) with
  | ok len s =>
    rw [hrun] at h
    cases h
    exact ⟨len, s, rfl, rfl⟩
  | error e s =>
    rw [hrun] at h
    cases h

theorem encodeObserved_of_le {size : VertexSize} {count : Nat} {data : List UInt8}
    (hversion : version ≤ FormatByte.maxVersion) (hdata : count * size.val ≤ data.length)
    (hroom : Layout.worstLength count size.val ≤ Work.maxAllocation)
    (obs : Observer σ) (observed : σ) (notices : List Notice) :
    ∃ observed' notices', encodeObserved ⟨data, size.val, count⟩ .delta version obs observed
      notices = .ok (streamBytes version count size.val data, observed') notices' := by
  have hworst : Layout.worstLength count size.val < Capacity.limit :=
    Nat.lt_of_le_of_lt hroom (by decide)
  have hB := Layout.blockLength_pos size
  have hlimit : count * size.val < Capacity.limit :=
    Nat.lt_of_le_of_lt (mul_le_worstLength hB) hworst
  have hadmissible : Admissible version count size.val data :=
    ⟨size.valid, hversion, hlimit, hdata⟩
  obtain ⟨job, hprepare, hbytes⟩ := prepare_of_admissible hadmissible
  have hfits : job.bytes.length ≤ Layout.worstLength count size.val := by
    rw [hbytes, streamBytes_length hadmissible]
    exact streamLength_le hB
  obtain ⟨observed', notices', hrun⟩ := runEncoder_of_le hfits (job.encode_emits obs)
    .encodeBuffer observed notices
  refine ⟨observed', notices', ?_⟩
  rw [encodeObserved]
  dsimp only
  rw [Work.bind_of_eq_ok (DeltaStream.isBound.of_lt hworst),
    bind_of_ok (Work.allocate_of_le hroom notices), Work.bind_of_eq_ok hprepare, hrun, hbytes]

end RecordSet

namespace Report
open DeltaStream
variable {data : List UInt8} {count : Nat} {size : VertexSize} {version : UInt8}
  {notices notices' : List Notice}

theorem of_ofRecords_eq_ok {report : Report}
    (h : ofRecords ⟨data, size.val, count⟩ version notices = .ok report notices') :
    ∃ destination len s, DeltaStream.encode Account.observer version count size.val data
      (.start destination (.empty size.val)) = .ok len s ∧ report.account = s.observed := by
  rw [ofRecords] at h
  obtain ⟨_, _, _, h⟩ := bind_eq_ok_iff.1 h
  obtain ⟨_, _, _, h⟩ := bind_eq_ok_iff.1 h
  obtain ⟨result, _, hresult, h⟩ := bind_eq_ok_iff.1 h
  obtain ⟨destination, len, s, hs, haccount⟩ := RecordSet.of_encodeObserved_eq_ok hresult
  cases h
  exact ⟨destination, len, s, hs, haccount⟩

theorem ofRecords_of_le (hversion : version ≤ FormatByte.maxVersion)
    (hdata : count * size.val ≤ data.length)
    (hroom : Layout.worstLength count size.val ≤ Work.maxAllocation) (notices : List Notice) :
    ∃ report notices', ofRecords ⟨data, size.val, count⟩ version notices =
      .ok report notices' := by
  obtain ⟨_, notices', hresult⟩ := RecordSet.encodeObserved_of_le hversion hdata hroom
    Account.observer (.empty size.val) notices
  have hchannels : size.val * channelBytes ≤ Work.maxAllocation :=
    Nat.le_trans (Nat.mul_le_mul_right channelBytes size.le_max) (by decide)
  have hworst : Layout.worstLength count size.val < Capacity.limit :=
    Nat.lt_of_le_of_lt hroom (by decide)
  rw [ofRecords, bind_of_ok (Work.allocate_of_le hchannels notices),
    Work.bind_of_eq_ok (DeltaStream.isBound.of_lt hworst), bind_of_ok hresult]
  exact ⟨_, notices', rfl⟩

theorem channel_of_ofRecords {report : Report}
    (h : ofRecords ⟨data, size.val, count⟩ version notices = .ok report notices')
    (k : Fin size.val) :
    (report.account.channel k).Exact count size.val ∧
      (report.account.channel k).SameGroups (ChannelAccount.empty.after
        ((Entry.ofColumn ((firstRecord (Record.split size.val count data)).get k)
          (Record.column k (Record.split size.val count data))).events k)) := by
  obtain ⟨destination, len, s, hs, haccount⟩ := of_ofRecords_eq_ok h
  rw [haccount]
  exact ⟨(account_of_ok hs).exact k k.isLt, sameGroups_of_ok hs k⟩

theorem channels_length_of_ofRecords {report : Report}
    (h : ofRecords ⟨data, size.val, count⟩ version notices = .ok report notices') :
    report.account.channels.length = size.val := by
  obtain ⟨destination, len, s, hs, haccount⟩ := of_ofRecords_eq_ok h
  rw [haccount, (account_of_ok hs).channels, Nat.max_self, ite_self]

end Report
end VertexPack
