import VertexPack.Channel
import VertexPack.Proofs.ChannelBytes

/-! The byte strings that a channel is read from. The selector header names a width for
every group, and each group stands in any form of that width. -/
namespace VertexPack.Channel
open Width

def GroupsForm (groups : List Group) (bs : List UInt8) : Prop :=
  ∃ (head : List UInt8) (parts : List (List UInt8)), head.length = headerSize groups.length ∧
    parts.length = groups.length ∧
    (∀ i (hg : i < groups.length) (hp : i < parts.length),
      Group.Form (named head i) groups[i] parts[i]) ∧
    bs = head ++ parts.flatten

/-- A column that is predicted from `p`; entries past its end are not looked at. -/
def ColumnForm (p : UInt8) (column : List UInt8) (bs : List UInt8) : Prop :=
  ∃ groups : List Group, groups.length = Layout.groupCount column.length ∧
    Delta.encode p column = (groups.flatMap Vector.toList).take column.length ∧
    GroupsForm groups bs

theorem decodeGroups_reads (n : Nat) :
    Reads Layout.headroom (decodeGroups n) fun groups bs => GroupsForm groups.toList bs := by
  have group (head : List UInt8) (i : Fin n) :
      Reads Layout.headroom (Reader.ensure Layout.headroom >>= fun _ => Group.unpack (named head i))
        (Group.Form (named head i)) := by
    refine ((Reads.ensure (Nat.le_refl _)).bind fun _ => Group.unpack_reads _).congr fun g bs => ?_
    constructor
    · intro h
      obtain ⟨_, u, v, rfl, hv, rfl⟩ := h
      exact hv
    · intro h
      exact ⟨(), [], bs, rfl, h, rfl⟩
  refine (((Reads.take (headerSize n)).bind fun a => Reads.ofFnM (group a.1)).congr
    fun groups bs => ?_).adaptExcept
  constructor
  · intro h
    obtain ⟨⟨head, hhead⟩, u, v, rfl, ⟨parts, hparts, rfl⟩, rfl⟩ := h
    refine ⟨head, List.ofFn parts, ?_, ?_, fun i hg hp => ?_, rfl⟩
    · rw [hhead, Vector.length_toList]
    · rw [List.length_ofFn, Vector.length_toList]
    · rw [Vector.length_toList] at hg
      simpa using hparts ⟨i, hg⟩
  · intro h
    obtain ⟨head, parts, hhead, hlen, hparts, rfl⟩ := h
    rw [Vector.length_toList] at hhead hlen
    refine ⟨⟨head, hhead⟩, head, parts.flatten, rfl,
      ⟨fun i => parts.get ⟨i, by omega⟩, fun i => ?_, ?_⟩, rfl⟩
    · simpa using hparts i (by simp) (by omega)
    · congr 1
      apply List.ext_getElem
      · simpa using hlen
      · simp

theorem decode_reads (p : UInt8) (n : Nat) :
    Reads Layout.headroom (decode p n) fun column bs => ColumnForm p column.toList bs := by
  refine ((decodeGroups_reads (Layout.groupCount n)).map (f := fun groups =>
    (⟨(Delta.decode p (deltas n groups)).toArray, by simp [deltas_length]⟩ : Vector UInt8 n))).congr
    fun column bs => ?_
  constructor
  · intro h
    obtain ⟨groups, hgroups, rfl⟩ := h
    refine ⟨groups.toList, by simp [deltas_length], ?_, hgroups⟩
    simp [Delta.encode_decode, deltas]
  · intro h
    obtain ⟨groups, hlen, hdelta, hgroups⟩ := h
    rw [Vector.length_toList] at hlen hdelta
    refine ⟨⟨groups.toArray, by simpa using hlen⟩, by simpa using hgroups, ?_⟩
    apply Vector.toList_inj.1
    change column.toList = Delta.decode p ((groups.flatMap Vector.toList).take n)
    rw [← hdelta, Delta.decode_encode]

end VertexPack.Channel
