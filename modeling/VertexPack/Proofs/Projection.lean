import VertexPack.Proofs.Reports

/-! Records that are cut down to their first bytes. The channels that are kept are encoded as
they were, though the blocks of shorter records may be longer. -/
namespace VertexPack

namespace Record
variable {size kept : Nat}

def front (h : kept ≤ size) (r : Record size) : Record kept :=
  Vector.ofFn fun k => r.get (k.castLE h)

theorem get_front (h : kept ≤ size) (r : Record size) (k : Fin kept) :
    (front h r).get k = r.get (k.castLE h) := by
  rw [front, get_ofFn]

theorem toList_front (h : kept ≤ size) (r : Record size) :
    (front h r).toList = r.toList.take kept := by
  apply List.ext_getElem
  · simp [h]
  · intro k hk hk'
    simp [front, get_eq_getElem]

theorem column_front (h : kept ≤ size) (records : List (Record size)) (k : Fin kept) :
    column k (records.map (front h)) = column (k.castLE h) records := by
  rw [column, List.map_map, column]
  congr 1
  funext r
  exact get_front h r k

theorem get_firstRecord_front (h : kept ≤ size) (records : List (Record size)) (k : Fin kept) :
    (DeltaStream.firstRecord (records.map (front h))).get k =
      (DeltaStream.firstRecord records).get (k.castLE h) := by
  cases records with
  | nil => simp [DeltaStream.firstRecord, get_eq_getElem]
  | cons r rs => exact get_front h r k

end Record

namespace RecordSet
variable {stride kept count : Nat} {data : List UInt8}

def fronts (h : kept ≤ stride) (count : Nat) (data : List UInt8) : List UInt8 :=
  Record.flatten ((Record.split stride count data).map (Record.front h))

theorem ofBytes_of_pos (h : 0 < stride) (input : List UInt8) (notices : List Notice) :
    ∃ notices', ofBytes input stride notices =
      .ok ⟨input.take (input.length / stride * stride), stride, input.length / stride⟩
        notices' := by
  rw [ofBytes, if_neg (by omega)]
  by_cases hextra : input.length % stride = 0
  · rw [if_neg (not_not.2 hextra)]
    exact ⟨notices, rfl⟩
  · rw [if_pos hextra]
    exact ⟨_, rfl⟩

/-- The number of whole records in the bytes of a set; the set may say another count. -/
def whole (set : RecordSet) : Nat := set.data.length / set.stride

theorem whole_of_length (hpos : 0 < stride) (h : data.length = count * stride) :
    whole ⟨data, stride, count⟩ = count := by
  rw [whole, h, Nat.mul_div_cancel count hpos]

theorem project_eq_ok (set : RecordSet) (hpos : 0 < kept) (hle : kept ≤ set.stride) :
    set.project kept = .ok ⟨fronts hle set.whole set.data, kept, set.count⟩ := by
  have hwhole : set.whole * set.stride ≤ set.data.length := Nat.div_mul_le_self _ _
  rw [project, if_pos ⟨hpos, hle⟩]
  dsimp only
  rw [← whole, ← Record.map_toList_split hwhole, fronts, Record.flatten, List.flatMap_map,
    List.flatMap_map]
  simp only [Record.toList_front]

theorem project_of_le (hpos : 0 < kept) (hle : kept ≤ stride) (h : data.length = count * stride) :
    project ⟨data, stride, count⟩ kept = .ok ⟨fronts hle count data, kept, count⟩ := by
  have hproject := project_eq_ok ⟨data, stride, count⟩ hpos hle
  rwa [whole_of_length (Nat.lt_of_lt_of_le hpos hle) h] at hproject

theorem split_fronts (h : kept ≤ stride) :
    Record.split kept count (fronts h count data) =
      (Record.split stride count data).map (Record.front h) := by
  rw [fronts]
  exact Record.split_flatten (by rw [List.length_map, Record.split_length])

theorem fronts_length (h : kept ≤ stride) : (fronts h count data).length = count * kept := by
  rw [fronts, Record.flatten_length, List.length_map, Record.split_length]

end RecordSet

namespace Report
open DeltaStream Layout
variable {count : Nat} {data : List UInt8} {full part : Report} {version version' : UInt8}
  {notices notices' notices₁ notices₁' : List Notice}

section Kept
variable {stride kept : VertexSize} (hle : kept.val ≤ stride.val)
  (hfull : ofRecords ⟨data, stride.val, count⟩ version notices = .ok full notices')
  (hpart : ofRecords ⟨RecordSet.fronts hle count data, kept.val, count⟩ version' notices₁ =
    .ok part notices₁')
include hfull hpart

theorem channel_kept (k : Fin kept.val) :
    (full.account.channel k).SameGroups (part.account.channel k) := by
  have hsame := (channel_of_ofRecords hfull (k.castLE hle)).2
  have hsame' := (channel_of_ofRecords hpart k).2
  rw [RecordSet.split_fronts, Record.column_front, Record.get_firstRecord_front] at hsame'
  exact hsame.trans hsame'.symm

theorem size_sub_header_kept (k : Fin kept.val) :
    (full.account.channel k).size - (full.account.channel k).header =
      (part.account.channel k).size - (part.account.channel k).header := by
  have hsize := (channel_of_ofRecords hfull (k.castLE hle)).1.size_eq
  have hsize' := (channel_of_ofRecords hpart k).1.size_eq
  rw [Fin.val_castLE] at hsize
  rw [hsize, hsize', (channel_kept hle hfull hpart k).groupBytes, Nat.add_sub_cancel_left,
    Nat.add_sub_cancel_left]

theorem header_kept (hblock : blockLength kept.val = blockLength stride.val) (k : Fin kept.val) :
    (full.account.channel k).header = (part.account.channel k).header := by
  have hheader := (channel_of_ofRecords hfull (k.castLE hle)).1.header
  have hheader' := (channel_of_ofRecords hpart k).1.header
  rw [blockCounts] at hheader hheader'
  rw [hblock] at hheader'
  exact hheader.trans hheader'.symm

theorem size_kept (hblock : blockLength kept.val = blockLength stride.val) (k : Fin kept.val) :
    (full.account.channel k).size = (part.account.channel k).size := by
  have hsize := (channel_of_ofRecords hfull (k.castLE hle)).1.size_eq
  have hsize' := (channel_of_ofRecords hpart k).1.size_eq
  rw [Fin.val_castLE] at hsize
  rw [hsize, hsize', header_kept hle hfull hpart hblock k,
    (channel_kept hle hfull hpart k).groupBytes]

end Kept

theorem exists_ofRecords {size : VertexSize} (hversion : version ≤ FormatByte.maxVersion)
    (hdata : count * size.val ≤ data.length) (hlimit : count * size.val ≤ Capacity.limit / 8)
    (notices : List Notice) :
    ∃ report notices', ofRecords ⟨data, size.val, count⟩ version notices =
      .ok report notices' := by
  refine ofRecords_of_le hversion hdata ?_ notices
  have hworst := worstLength_le count size
  unfold blockBudget at hworst
  unfold Capacity.limit at hlimit
  unfold Work.maxAllocation Capacity.limit
  omega

/-- Cutting records down to their first bytes leaves the channels that are kept undisturbed: in
the reports on both, each has the same groups of the same sizes and the same shared bits. Only
the selector headers follow the blocks, and they too agree where the blocks are equally long. -/
theorem ofRecords_project {stride kept : Nat} (hstride : ValidSize stride) (hkept : ValidSize kept)
    (hle : kept ≤ stride) (input : List UInt8) (notices : List Notice) :
    ∃ set less notices', RecordSet.ofBytes input stride notices = .ok set notices' ∧
      set.project kept = .ok less ∧
      (∀ (version version' : UInt8) (full part : Report) (n₁ n₁' n₂ n₂' : List Notice),
        ofRecords set version n₁ = .ok full n₁' → ofRecords less version' n₂ = .ok part n₂' →
        full.account.channels.length = stride ∧ part.account.channels.length = kept ∧
        ∀ k < kept,
          (full.account.channel k).SameGroups (part.account.channel k) ∧
          (full.account.channel k).size - (full.account.channel k).header =
            (part.account.channel k).size - (part.account.channel k).header ∧
          (blockLength kept = blockLength stride →
            (full.account.channel k).header = (part.account.channel k).header ∧
              (full.account.channel k).size = (part.account.channel k).size)) ∧
      (input.length ≤ Capacity.limit / 8 → ∀ version ≤ 15, ∀ n : List Notice,
        (∃ full n', ofRecords set version n = .ok full n') ∧
          ∃ part n', ofRecords less version n = .ok part n') := by
  obtain ⟨stride, rfl⟩ := hstride.exists_size
  obtain ⟨kept, rfl⟩ := hkept.exists_size
  obtain ⟨notices', hset⟩ := RecordSet.ofBytes_of_pos stride.pos input notices
  have hcount := Nat.div_mul_le_self input.length stride.val
  have hdata : (input.take (input.length / stride.val * stride.val)).length =
      input.length / stride.val * stride.val := List.length_take_of_le hcount
  refine ⟨_, _, notices', hset, RecordSet.project_of_le kept.pos hle hdata, ?_, ?_⟩
  · intro version version' full part n₁ n₁' n₂ n₂' hfull hpart
    refine ⟨channels_length_of_ofRecords hfull, channels_length_of_ofRecords hpart, ?_⟩
    intro k hk
    exact ⟨channel_kept hle hfull hpart ⟨k, hk⟩, size_sub_header_kept hle hfull hpart ⟨k, hk⟩,
      fun hblock => ⟨header_kept hle hfull hpart hblock ⟨k, hk⟩,
        size_kept hle hfull hpart hblock ⟨k, hk⟩⟩⟩
  · intro hlimit version hversion n
    have hkeptcount := Nat.mul_le_mul_left (input.length / stride.val) hle
    refine ⟨exists_ofRecords hversion (Nat.le_of_eq hdata.symm) (by omega) n,
      exists_ofRecords hversion (Nat.le_of_eq (RecordSet.fronts_length hle).symm) (by omega) n⟩

theorem ofRecords_project_two_records :
    blockLength 36 < blockLength 4 ∧
    ∃ set less full part n₁ n₂ n₃, RecordSet.ofBytes (List.replicate 73 7) 36 [] = .ok set n₁ ∧
      set.project 4 = .ok less ∧ ofRecords set 1 [] = .ok full n₂ ∧
      ofRecords less 1 [] = .ok part n₃ ∧
      ∀ k < 4, (full.account.channel k).SameGroups (part.account.channel k) := by
  have hstride : ValidSize 36 := by decide
  have hfront : ValidSize 4 := by decide
  obtain ⟨set, less, n₁, hset, hless, hkept, hreports⟩ :=
    ofRecords_project hstride hfront (by decide) (List.replicate 73 7) []
  obtain ⟨⟨full, n₂, hfull⟩, part, n₃, hpart⟩ :=
    hreports (by rw [List.length_replicate]; decide) 1 (by decide) []
  obtain ⟨_, _, hchannels⟩ := hkept 1 1 full part [] n₂ [] n₃ hfull hpart
  exact ⟨by decide, set, less, full, part, n₁, n₂, n₃, hset, hless, hfull, hpart,
    fun k hk => (hchannels k hk).1⟩

end Report
end VertexPack
