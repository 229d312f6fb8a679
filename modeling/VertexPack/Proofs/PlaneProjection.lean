import VertexPack.Proofs.PlaneColumns
import VertexPack.Proofs.PlaneLength
import VertexPack.Proofs.Projection

/-! Record sets as plane streams. Records that are cut down to their first words have the front of
the stream that the records have. -/
namespace VertexPack

theorem Record.word_front {size kept : Nat} (h : kept ≤ size) (r : Record size)
    (j : Fin (kept / 4)) :
    (front h r).word j = r.word (j.castLE (Nat.div_le_div_right h)) := by
  apply Word.eq_of_byte
  intro b hb
  rw [byte_word _ _ hb, byte_word _ _ hb, get_front]
  rfl

namespace PlaneStream
open Plane
variable {size kept count : Nat}

theorem flatten_ofFn_castLE_isPrefix {α : Type} {m n : Nat} (h : m ≤ n) (f : Fin n → List α) :
    (List.ofFn fun i : Fin m => f (i.castLE h)).flatten <+: (List.ofFn f).flatten := by
  obtain ⟨k, rfl⟩ := Nat.exists_eq_add_of_le h
  rw [List.ofFn_add, List.flatten_append]
  exact List.prefix_append _ _

theorem streamBytes_fronts_isPrefix (h : kept ≤ size) (count : Nat) (data : List UInt8) :
    streamBytes count kept (RecordSet.fronts h count data) <+: streamBytes count size data := by
  rw [streamBytes, RecordSet.split_fronts, Cut.bytes, streamBytes, Cut.bytes]
  have hcolumn (j : Fin (kept / 4)) :
      Cut.ofRecords count ((Record.split size count data).map (Record.front h)) j =
        Cut.ofRecords count (Record.split size count data)
          (j.castLE (Nat.div_le_div_right h)) :=
    Cut.ofRecords_map (fun r => Record.word_front h r j) _
  simp only [hcolumn]
  exact flatten_ofFn_castLE_isPrefix (Nat.div_le_div_right h) fun j =>
    columnBytes (Cut.ofRecords count (Record.split size count data) j)

end PlaneStream

theorem Work.of_allocate_eq_ok {bytes : Nat} {notices notices' : List Notice}
    (h : allocate bytes notices = .ok () notices') : bytes ≤ maxAllocation := by
  rw [allocate] at h
  split at h
  · assumption
  · cases h

namespace RecordSet
open PlaneStream
variable {size : VertexSize} {count : Nat} {data : List UInt8} {version : UInt8}
  {notices notices' : List Notice}

theorem encode_planes_of_le (hdata : count * size.val ≤ data.length)
    (hroom : worstLength count size.val ≤ Work.maxAllocation) (version : UInt8)
    (notices : List Notice) :
    ∃ notices', encode ⟨data, size.val, count⟩ .planes version notices =
      .ok (streamBytes count size.val data) notices' := by
  have hworst : worstLength count size.val < Capacity.limit := Nat.lt_of_le_of_lt hroom (by decide)
  have hlimit : count * size.val < Capacity.limit :=
    Nat.lt_of_le_of_lt (mul_le_worstLength size.four_dvd) hworst
  obtain ⟨job, hprepare, hbytes⟩ := prepare_of_admissible ⟨size.valid, hlimit, hdata⟩
  have hfits : job.bytes.length ≤ worstLength count size.val := by
    rw [hbytes, streamBytes_length]
    exact PlaneStream.streamLength_le _ _ _
  obtain ⟨observed', notices', hrun⟩ := runEncoder_of_le hfits job.encode_emits
    .encodePlanes () notices
  have hobserved : encodeObserved ⟨data, size.val, count⟩ .planes version Observer.silent ()
      notices = .ok (streamBytes count size.val data, observed') notices' := by
    rw [encodeObserved]
    dsimp only
    rw [Work.bind_of_eq_ok (isBound.of_lt hworst), bind_of_ok (Work.allocate_of_le hroom notices),
      Work.bind_of_eq_ok hprepare, hrun, hbytes]
  refine ⟨notices', ?_⟩
  rw [encode, bind_of_ok hobserved]
  rfl

theorem of_encode_planes_eq_ok {stream : List UInt8} (hdata : count * size.val ≤ data.length)
    (h : encode ⟨data, size.val, count⟩ .planes version notices = .ok stream notices') :
    worstLength count size.val ≤ Work.maxAllocation ∧ stream = streamBytes count size.val data := by
  have hroom : worstLength count size.val ≤ Work.maxAllocation := by
    rw [encode] at h
    obtain ⟨_, _, hobserved, _⟩ := bind_eq_ok_iff.1 h
    rw [encodeObserved] at hobserved
    obtain ⟨capacity, _, hbound, hobserved⟩ := bind_eq_ok_iff.1 hobserved
    obtain ⟨_, _, hallocate, _⟩ := bind_eq_ok_iff.1 hobserved
    rw [← (isBound.of_eq_ok (Work.of_ofExcept_eq_ok hbound)).2.2]
    exact Work.of_allocate_eq_ok hallocate
  obtain ⟨_, hrun⟩ := encode_planes_of_le hdata hroom version notices
  cases h.symm.trans hrun
  exact ⟨hroom, rfl⟩

/-- Cutting records down to their first words cuts their stream down to its front. -/
theorem encode_project_isPrefix {stride kept : VertexSize} (hle : kept.val ≤ stride.val)
    (hdata : data.length = count * stride.val) {full : List UInt8}
    (h : encode ⟨data, stride.val, count⟩ .planes version notices = .ok full notices')
    (version' : UInt8) (notices₁ : List Notice) :
    ∃ part notices₁', encode ⟨fronts hle count data, kept.val, count⟩ .planes version' notices₁ =
      .ok part notices₁' ∧ part <+: full := by
  obtain ⟨hroom, rfl⟩ := of_encode_planes_eq_ok (Nat.le_of_eq hdata.symm) h
  -- A destination that can be allocated for the records can be for what is kept of them.
  obtain ⟨notices₁', hpart⟩ := encode_planes_of_le (Nat.le_of_eq (fronts_length hle).symm)
    (Nat.le_trans (worstLength_mono count hle) hroom) version' notices₁
  exact ⟨_, notices₁', hpart, streamBytes_fronts_isPrefix hle count data⟩

end RecordSet

namespace PlaneStream
open Record
variable {size : Nat}

/-- A plane stream is made of the streams of its word columns, which know nothing of each other. It
is encoded as these streams one after the other, and it is decoded wherever each of them is, to
the words that they hold; and every stream is cut into such streams in one way. So records that
are cut down to their first words have the front of the stream. -/
theorem column_by_column (hsize : ValidSize size) :
    (∀ (count : Nat) (source : List UInt8), count * size < Capacity.limit →
      count * size ≤ source.length → ∃ streams : Fin (size / 4) → List UInt8,
        (∀ j : Fin (size / 4), IsStream count 4 (wordBytes count size source j) (streams j)) ∧
          IsStream count size source (List.ofFn streams).flatten) ∧
    (∀ (count : Nat) (streams outs found : Fin (size / 4) → List UInt8),
      (∀ j, decodeInto (outs j) count 4 (streams j) = .ok (found j)) →
      ∀ out : List UInt8, out.length < Capacity.limit → count * size ≤ out.length →
        ∃ bytes, decodeInto out count size (List.ofFn streams).flatten = .ok bytes ∧
          bytes.length = out.length ∧ bytes.drop (count * size) = out.drop (count * size) ∧
          ∀ j : Fin (size / 4), wordBytes count size bytes j = (found j).take (count * 4)) ∧
    (∀ (count : Nat) (out stream bytes : List UInt8),
      decodeInto out count size stream = .ok bytes →
        ∃ streams : Fin (size / 4) → List UInt8, (List.ofFn streams).flatten = stream ∧
          (∀ (j : Fin (size / 4)) (out' : List UInt8), count * 4 ≤ out'.length →
            decodeInto out' count 4 (streams j) =
              .ok (wordBytes count size bytes j ++ out'.drop (count * 4))) ∧
          ∀ streams' : Fin (size / 4) → List UInt8, (List.ofFn streams').flatten = stream →
            (∀ j, ∃ out' found, decodeInto out' count 4 (streams' j) = .ok found) →
            streams' = streams) ∧
    ∀ kept, 0 < kept → 4 ∣ kept → kept ≤ size → ∀ (input : List UInt8) (notices : List Notice),
      ∃ set less notices', RecordSet.ofBytes input size notices = .ok set notices' ∧
        set.project kept = .ok less ∧
        (∀ (version version' : UInt8) (n n' m : List Notice) (full : List UInt8),
          set.encode .planes version n = .ok full n' →
          ∃ part m', less.encode .planes version' m = .ok part m' ∧ part <+: full) ∧
        (input.length ≤ Capacity.limit / 8 → ∀ (version : UInt8) (n : List Notice),
          ∃ full n', set.encode .planes version n = .ok full n') := by
  obtain ⟨size, rfl⟩ := hsize.exists_size
  refine ⟨fun count source hlim hle => ?_, fun count streams outs found h out hlim hle =>
    decodeInto_flatten (Nat.lt_of_le_of_lt hle hlim) hle h,
    fun count out stream bytes h => exists_streams h, ?_⟩
  · have hadmissible : Admissible count size.val source := ⟨size.valid, hlim, hle⟩
    refine ⟨fun j => streamBytes count 4 (wordBytes count size.val source j),
      fun j => isStream_streamBytes (hadmissible.wordBytes j), ?_⟩
    rw [← streamBytes_eq_flatten hle]
    exact isStream_streamBytes hadmissible
  · intro kept hpos hdvd hle input notices
    have hkept : ValidSize kept := ⟨hpos, Nat.le_trans hle size.le_max, hdvd⟩
    obtain ⟨kept, rfl⟩ := hkept.exists_size
    obtain ⟨notices', hset⟩ := RecordSet.ofBytes_of_pos size.pos input notices
    have hcount := Nat.div_mul_le_self input.length size.val
    have hdata : (input.take (input.length / size.val * size.val)).length =
        input.length / size.val * size.val := List.length_take_of_le hcount
    refine ⟨_, _, notices', hset, RecordSet.project_of_le hpos hle hdata, ?_, ?_⟩
    · intro version version' n n' m full hfull
      exact RecordSet.encode_project_isPrefix hle hdata hfull version' m
    · intro hlimit version n
      have hworst := worstLength_le (input.length / size.val) size
      have hroom : worstLength (input.length / size.val) size.val ≤ Work.maxAllocation := by
        unfold Capacity.limit at hlimit
        unfold Work.maxAllocation Capacity.limit
        omega
      exact ⟨_, RecordSet.encode_planes_of_le (Nat.le_of_eq hdata.symm) hroom version n⟩

theorem column_by_column_two_words :
    (∃ bytes, decodeInto (List.replicate 9 3) 1 8 [0, 0, 0, 0, 0, 0, 0, 0] = .ok bytes ∧
      wordBytes 1 8 bytes 1 = [0, 0, 0, 0]) ∧
    ∃ set less full part n₁ n₂ n₃, RecordSet.ofBytes (List.replicate 17 7) 8 [] = .ok set n₁ ∧
      set.project 4 = .ok less ∧ set.encode .planes 1 [] = .ok full n₂ ∧
      less.encode .planes 1 [] = .ok part n₃ ∧ part <+: full := by
  have hmask : decodeInto [9, 9, 9, 9] 1 4 [0, 0, 0, 0] = .ok [0, 0, 0, 0] := by
    with_unfolding_all rfl
  have hsize : ValidSize 8 := by decide
  obtain ⟨_, hdecode, _, hproject⟩ := column_by_column hsize
  obtain ⟨bytes, hbytes, _, _, hwords⟩ := hdecode 1 (fun _ => [0, 0, 0, 0])
    (fun _ => [9, 9, 9, 9]) (fun _ => [0, 0, 0, 0]) (fun _ => hmask) (List.replicate 9 3)
    (by decide) (by decide)
  obtain ⟨set, less, n₁, hset, hless, hparts, hfull⟩ :=
    hproject 4 (by decide) (by decide) (by decide) (List.replicate 17 7) []
  obtain ⟨full, n₂, hencode⟩ := hfull (by rw [List.length_replicate]; decide) 1 []
  obtain ⟨part, n₃, hpart, hfront⟩ := hparts 1 1 [] n₂ [] full hencode
  exact ⟨⟨bytes, hbytes, hwords ⟨1, by decide⟩⟩, set, less, full, part, n₁, n₂, n₃, hset, hless,
    hencode, hpart, hfront⟩

end PlaneStream
end VertexPack
