import VertexPack.Proofs.Projection

/-! Projections one after the other. A set whose bytes are just its records keeps that, its count
and the first bytes of its records; two projections are the narrower one of them. -/
namespace VertexPack

namespace Record
variable {size kept fewer : Nat}

theorem front_front (h : kept ≤ size) (h' : fewer ≤ kept) (r : Record size) :
    front h' (front h r) = front (Nat.le_trans h' h) r := by
  apply Vector.ext
  intro k hk
  have hinner := get_front h r (Fin.castLE h' ⟨k, hk⟩)
  have houter := get_front (Nat.le_trans h' h) r ⟨k, hk⟩
  exact (get_front h' (front h r) ⟨k, hk⟩).trans (hinner.trans houter.symm)

theorem front_self (r : Record size) : front (Nat.le_refl size) r = r := by
  apply Vector.ext
  intro k hk
  exact get_front (Nat.le_refl size) r ⟨k, hk⟩

theorem getElem?_eq_byteAt {size count : Nat} {source : List UInt8} {i k : Nat}
    (h : count * size ≤ source.length) (hi : i < count) (hk : k < size) :
    source[i * size + k]? = some (byteAt size source i k) := by
  have hnext := Nat.mul_le_mul_right size (Nat.succ_le_of_lt hi)
  rw [Nat.succ_mul] at hnext
  have hlt : i * size + k < source.length := by omega
  rw [byteAt, List.getD_eq_getElem _ _ hlt, List.getElem?_eq_getElem hlt]

end Record

namespace RecordSet
variable {set mid less : RecordSet} {stride kept count : Nat} {data : List UInt8}

theorem fronts_fronts {p q : Nat} (hq : q ≤ stride) (hp : p ≤ q) (count : Nat)
    (data : List UInt8) :
    fronts hp count (fronts hq count data) = fronts (Nat.le_trans hp hq) count data := by
  rw [fronts, split_fronts, List.map_map, fronts]
  simp only [Function.comp_def, Record.front_front]

theorem fronts_self (h : data.length = count * stride) :
    fronts (Nat.le_refl stride) count data = data := by
  have hfront : Record.front (Nat.le_refl stride) = id := funext Record.front_self
  rw [fronts, hfront, List.map_id, Record.flatten_split_self h]

theorem getElem?_fronts (hle : kept ≤ stride) (h : count * stride ≤ data.length) {i j : Nat}
    (hi : i < count) (hj : j < kept) :
    (fronts hle count data)[i * kept + j]? = data[i * stride + j]? := by
  have hsplit : i < (Record.split kept count (fronts hle count data)).length := by
    rwa [Record.split_length]
  have hfull : i < (Record.split stride count data).length := by rwa [Record.split_length]
  have hbyte := Record.get_split hsplit ⟨j, hj⟩
  simp only [split_fronts, List.getElem_map, Record.get_front, Record.get_split] at hbyte
  rw [Record.getElem?_eq_byteAt (Nat.le_of_eq (fronts_length hle).symm) hi hj, ← hbyte,
    Record.getElem?_eq_byteAt h hi (Nat.lt_of_lt_of_le hj hle)]
  rfl

theorem project_eq_error_iff (set : RecordSet) (kept : Nat) (f : Failure) :
    set.project kept = .error f ↔
      (kept = 0 ∨ set.stride < kept) ∧ f = .keptOutside kept set.stride := by
  by_cases h : 0 < kept ∧ kept ≤ set.stride
  · have hinside : ¬ (kept = 0 ∨ set.stride < kept) := by omega
    rw [project_eq_ok set h.1 h.2]
    simp [hinside]
  · have houtside : kept = 0 ∨ set.stride < kept := by omega
    rw [project, if_neg h]
    simp [houtside, eq_comm]

theorem bounds_of_project_eq_ok (h : set.project kept = .ok less) :
    0 < kept ∧ kept ≤ set.stride := by
  by_contra hout
  rw [project, if_neg hout] at h
  cases h

theorem project_project (set : RecordSet) {p q : Nat} (hpos : 0 < p) (hle : p ≤ q)
    (hq : q ≤ set.stride) : (set.project q >>= fun less => less.project p) = set.project p := by
  have hqpos := Nat.lt_of_lt_of_le hpos hle
  have hwhole : whole ⟨fronts hq set.whole set.data, q, set.count⟩ = set.whole := by
    rw [whole, fronts_length, Nat.mul_div_cancel _ hqpos]
  rw [project_eq_ok set hqpos hq]
  change project ⟨fronts hq set.whole set.data, q, set.count⟩ p = _
  rw [project_eq_ok _ hpos hle, hwhole, fronts_fronts, project_eq_ok set hpos (Nat.le_trans hle hq)]

/-- The second set has of every record of the first one the leading bytes, and nothing else. -/
structure Leads (set less : RecordSet) : Prop where
  length_eq : less.data.length = less.count * less.stride
  count_eq : less.count = set.count
  stride_le : less.stride ≤ set.stride
  byte_eq : ∀ i < set.count, ∀ j < less.stride,
    less.data[i * less.stride + j]? = set.data[i * set.stride + j]?

namespace Leads

theorem refl (h : set.data.length = set.count * set.stride) : set.Leads set :=
  ⟨h, rfl, Nat.le_refl _, fun _ _ _ _ => rfl⟩

theorem trans (h : set.Leads mid) (h' : mid.Leads less) : set.Leads less where
  length_eq := h'.length_eq
  count_eq := h'.count_eq.trans h.count_eq
  stride_le := Nat.le_trans h'.stride_le h.stride_le
  byte_eq i hi j hj := by
    rw [h'.byte_eq i (by rwa [h.count_eq]) j hj,
      h.byte_eq i hi j (Nat.lt_of_lt_of_le hj h'.stride_le)]

theorem of_project (hset : set.data.length = set.count * set.stride)
    (h : set.project kept = .ok less) : set.Leads less ∧ less.stride = kept := by
  obtain ⟨hpos, hle⟩ := bounds_of_project_eq_ok h
  rw [project_of_le hpos hle hset] at h
  cases h
  exact ⟨⟨fronts_length hle, rfl, hle,
    fun i hi j hj => getElem?_fronts hle (Nat.le_of_eq hset.symm) hi hj⟩, rfl⟩

theorem of_foldlM (hset : set.data.length = set.count * set.stride) {keeps : List Nat}
    (h : keeps.foldlM project set = .ok less) :
    set.Leads less ∧ less.stride = keeps.getLastD set.stride := by
  induction keeps generalizing set with
  | nil =>
    cases h
    exact ⟨refl hset, rfl⟩
  | cons kept keeps ih =>
    rw [List.foldlM_cons] at h
    cases hfirst : set.project kept with
    | error f =>
      rw [hfirst] at h
      cases h
    | ok mid =>
      rw [hfirst] at h
      obtain ⟨hmid, hstride⟩ := of_project hset hfirst
      obtain ⟨hless, hlast⟩ := ih hmid.length_eq h
      rw [hstride] at hlast
      exact ⟨hmid.trans hless, by rw [hlast, List.getLastD_cons]⟩

end Leads

/-- The records that are cut from an input are its front; projections that succeed, as many as
there are, leave of each record the leading bytes; two are as good as the second one alone; and
only no bytes and more than a record has cannot be kept. -/
theorem projection_laws :
    (∀ (input : List UInt8) (stride : Nat) (notices : List Notice), 0 < stride →
      ∃ set notices', ofBytes input stride notices = .ok set notices' ∧
        set.data <+: input ∧ set.stride = stride ∧ set.count = input.length / stride ∧
        set.data.length = set.count * set.stride ∧ set.project stride = .ok set ∧
        ∀ (keeps : List Nat) (less : RecordSet), keeps.foldlM project set = .ok less →
          set.Leads less ∧ less.stride = keeps.getLastD stride) ∧
    (∀ (set : RecordSet) (p q : Nat), 0 < p → p ≤ q → q ≤ set.stride →
      (set.project q >>= fun less => less.project p) = set.project p) ∧
    ∀ (set : RecordSet) (kept : Nat) (f : Failure), set.project kept = .error f ↔
      (kept = 0 ∨ set.stride < kept) ∧ f = .keptOutside kept set.stride := by
  refine ⟨fun input stride notices hstride => ?_,
    fun set p q hpos hle hq => project_project set hpos hle hq, project_eq_error_iff⟩
  obtain ⟨notices', hset⟩ := ofBytes_of_pos hstride input notices
  have hlength : (input.take (input.length / stride * stride)).length =
      input.length / stride * stride := List.length_take_of_le (Nat.div_mul_le_self _ _)
  refine ⟨_, notices', hset, List.take_prefix _ _, rfl, rfl, hlength, ?_,
    fun keeps less h => Leads.of_foldlM hlength h⟩
  rw [project_of_le hstride (Nat.le_refl stride) hlength, fronts_self hlength]

theorem projection_laws_five_bytes :
    ∃ set notices, ofBytes [1, 2, 3, 4, 5, 6, 7, 8, 9, 10, 11] 5 [] = .ok set notices ∧
      [4, 2].foldlM project set = .ok ⟨[1, 2, 6, 7], 2, 2⟩ ∧
      (set.project 4 >>= fun less => less.project 2) = set.project 2 ∧
      set.Leads ⟨[1, 2, 6, 7], 2, 2⟩ := by
  obtain ⟨hbytes, hcompose, _⟩ := projection_laws
  obtain ⟨set, notices, hset, _, hstride, _, _, _, hchain⟩ :=
    hbytes [1, 2, 3, 4, 5, 6, 7, 8, 9, 10, 11] 5 [] (by decide)
  have hrun : [4, 2].foldlM project set = .ok ⟨[1, 2, 6, 7], 2, 2⟩ := by
    cases hset
    rfl
  exact ⟨set, notices, hset, hrun, hcompose set 2 4 (by decide) (by decide) (by omega),
    (hchain _ _ hrun).1⟩

end RecordSet
end VertexPack
