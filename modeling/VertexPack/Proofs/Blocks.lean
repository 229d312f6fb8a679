import VertexPack.Proofs.Payload
import VertexPack.Proofs.Splitting
import VertexPack.Proofs.StreamForm

/-! The blocks of a delta stream as data. They are told from their bytes alone; what they are
predicted from only settles which records they stand for. -/
namespace VertexPack

namespace Channel
open Width

/-- A channel of a block as it stands in a stream: a selector header and `n` payloads, each of
the width that the header names. -/
structure Segment (n : Nat) where
  header : List UInt8
  payload : Fin n → List UInt8
  header_length : header.length = headerSize n
  isPayload : ∀ i : Fin n, Group.IsPayload (named header i) (payload i)

namespace Segment
variable {n : Nat}

def bytes (s : Segment n) : List UInt8 := s.header ++ (List.ofFn s.payload).flatten

def values (s : Segment n) : List UInt8 :=
  (List.ofFn fun i : Fin n => Group.entries (named s.header i) (s.payload i)).flatten

theorem values_length (s : Segment n) : s.values.length = 16 * n := by
  have hentries (i : Fin n) := Group.entries_length (s.isPayload i)
  simp [values, List.length_flatten, List.map_ofFn, Function.comp_def, hentries, List.ofFn_const,
    Nat.mul_comm]

theorem take_values_length (s : Segment (Layout.groupCount n)) : (s.values.take n).length = n := by
  have hroom : n ≤ ceilDiv n 16 * 16 := le_ceilDiv_mul (by decide)
  have hlen : s.values.length = 16 * ceilDiv n 16 := s.values_length
  rw [List.length_take, hlen]
  omega

end Segment

theorem groupsForm_ofFn_iff {n : Nat} (groups : Fin n → Group) (bs : List UInt8) :
    GroupsForm (List.ofFn groups) bs ↔ ∃ s : Segment n,
      (∀ i, (groups i).toList = Group.entries (named s.header i) (s.payload i)) ∧ bs = s.bytes := by
  constructor
  · intro hform
    obtain ⟨head, parts, hhead, hlen, hforms, rfl⟩ := hform
    rw [List.length_ofFn] at hhead hlen
    subst hlen
    have hform (i : Fin parts.length) := (Group.form_iff _ (groups i) parts[i]).1
      (by simpa using hforms i (by simp) i.isLt)
    refine ⟨⟨head, parts.get, hhead, fun i => (hform i).1⟩, fun i => (hform i).2, ?_⟩
    rw [Segment.bytes, List.ofFn_get]
  · intro hform
    obtain ⟨s, hentries, rfl⟩ := hform
    refine ⟨s.header, List.ofFn s.payload, by simp [s.header_length], by simp, ?_, rfl⟩
    intro i hg hp
    rw [List.length_ofFn] at hg
    rw [List.getElem_ofFn, List.getElem_ofFn]
    exact (Group.form_iff _ _ _).2 ⟨s.isPayload ⟨i, hg⟩, hentries ⟨i, hg⟩⟩

theorem columnForm_iff {n : Nat} (p : UInt8) {column : List UInt8} (hlen : column.length = n)
    (bs : List UInt8) :
    ColumnForm p column bs ↔ ∃ s : Segment (Layout.groupCount n),
      Delta.encode p column = s.values.take n ∧ bs = s.bytes := by
  have hvalues {m : Nat} (groups : Fin m → Group) (s : Segment m)
      (h : ∀ i, (groups i).toList = Group.entries (named s.header i) (s.payload i)) :
      (List.ofFn groups).flatMap Vector.toList = s.values := by
    rw [Segment.values, ← funext h, List.flatMap_def, List.map_ofFn]
    rfl
  constructor
  · intro hform
    obtain ⟨groups, hgroups, hdelta, hform⟩ := hform
    rw [hlen] at hgroups hdelta
    rw [← List.ofFn_get groups, groupsForm_ofFn_iff] at hform
    obtain ⟨s, hentries, rfl⟩ := hform
    have hflat := hvalues _ s hentries
    rw [List.ofFn_get] at hflat
    rw [← hgroups]
    exact ⟨s, by rw [hdelta, hflat], rfl⟩
  · intro hform
    obtain ⟨s, hdelta, rfl⟩ := hform
    choose groups hgroups using fun i => Group.exists_form (s.isPayload i)
    refine ⟨List.ofFn groups, by rw [List.length_ofFn, hlen], ?_,
      (groupsForm_ofFn_iff _ _).2 ⟨s, fun i => (hgroups i).2, rfl⟩⟩
    rw [hvalues groups s fun i => (hgroups i).2, hlen, hdelta]

end Channel

theorem Block.form_iff {size n : Nat} (p : Record size) {records : List (Record size)}
    (hlen : records.length = n) (bs : List UInt8) :
    Form p records bs ↔ ∃ row : Fin size → Channel.Segment (Layout.groupCount n),
      (∀ k, Delta.encode (p.get k) (Record.column k records) = (row k).values.take n) ∧
        bs = (List.ofFn fun k => (row k).bytes).flatten := by
  have hcolumn (k : Fin size) (bs : List UInt8) := Channel.columnForm_iff (p.get k)
    ((Record.column_length k records).trans hlen) bs
  constructor
  · intro hform
    obtain ⟨parts, hparts, rfl⟩ := hform
    choose row hdelta hbytes using fun k => (hcolumn k _).1 (hparts k)
    exact ⟨row, hdelta, by rw [funext hbytes]⟩
  · intro hform
    obtain ⟨row, hdelta, rfl⟩ := hform
    exact ⟨_, fun k => (hcolumn k _).2 ⟨row k, hdelta k, rfl⟩, rfl⟩

namespace DeltaStream
variable {size count : Nat}

inductive Blocks (size : Nat) : Nat → Type
  | nil : Blocks size 0
  | cons {count : Nat} (hpos : 0 < count)
    (row : Fin size → Channel.Segment
      (Layout.groupCount (min (Layout.blockLength size) count)))
    (rest : Blocks size (count - min (Layout.blockLength size) count)) : Blocks size count

namespace Blocks

def bytes {count : Nat} : Blocks size count → List UInt8
  | .nil => []
  | .cons _ row rest => (List.ofFn fun k => (row k).bytes).flatten ++ rest.bytes

def values (k : Fin size) {count : Nat} : Blocks size count → List UInt8
  | .nil => []
  | @cons _ count _ row rest =>
    (row k).values.take (min (Layout.blockLength size) count) ++ rest.values k

/-- The records that blocks stand for when the first one is predicted from `p`. -/
def Stores (blocks : Blocks size count) (p : Record size) (records : List (Record size)) : Prop :=
  records.length = count ∧
    ∀ k, Delta.encode (p.get k) (Record.column k records) = blocks.values k

theorem values_length (blocks : Blocks size count) (k : Fin size) :
    (blocks.values k).length = count := by
  induction blocks with
  | nil => rfl
  | cons hpos row rest ih =>
    rw [values, List.length_append, (row k).take_values_length, ih]
    omega

theorem stores_cons_iff {hpos : 0 < count} {row rest} {p : Record size}
    {records : List (Record size)} :
    (cons hpos row rest).Stores p records ↔ ∃ b more,
      (b.length = min (Layout.blockLength size) count ∧
        ∀ k, Delta.encode (p.get k) (Record.column k b) =
          (row k).values.take (min (Layout.blockLength size) count)) ∧
      rest.Stores (b.getLastD p) more ∧ records = b ++ more := by
  have hcolumn (b more : List (Record size)) (k : Fin size) :
      Delta.encode (p.get k) (Record.column k (b ++ more)) =
        Delta.encode (p.get k) (Record.column k b) ++
          Delta.encode ((b.getLastD p).get k) (Record.column k more) := by
    rw [Record.column_append, Delta.encode_append, Record.getLastD_column]
  constructor
  · intro hstores
    obtain ⟨hlen, hvalues⟩ := hstores
    obtain ⟨b, more, hb, rfl⟩ : ∃ b more : List (Record size),
        b.length = min (Layout.blockLength size) count ∧ records = b ++ more :=
      ⟨records.take _, records.drop (min (Layout.blockLength size) count),
        by rw [List.length_take]; omega, (List.take_append_drop _ _).symm⟩
    have hsplit (k : Fin size) := List.append_inj ((hcolumn b more k).symm.trans (hvalues k))
      (by rw [Delta.encode_length, Record.column_length, (row k).take_values_length, hb])
    rw [List.length_append] at hlen
    exact ⟨b, more, ⟨hb, fun k => (hsplit k).1⟩, ⟨by omega, fun k => (hsplit k).2⟩, rfl⟩
  · intro hparts
    obtain ⟨b, more, ⟨hb, hfirst⟩, ⟨hmore, hrest⟩, rfl⟩ := hparts
    refine ⟨by rw [List.length_append]; omega, fun k => ?_⟩
    rw [hcolumn, hfirst, hrest, values]

end Blocks

theorem blocksForm_iff (hB : 0 < Layout.blockLength size) (p : Record size)
    (records : List (Record size)) (bs : List UInt8) :
    records.length = count ∧ BlocksForm p (chunks (Layout.blockLength size) records) bs ↔
      ∃ blocks : Blocks size count, blocks.Stores p records ∧ bs = blocks.bytes := by
  -- A block takes as much off the count as it can, so the induction is on all smaller counts.
  induction count using Nat.strongRecOn generalizing p records bs with
  | _ count ih =>
    by_cases hpos : 0 < count
    · have hrest := ih (count - min (Layout.blockLength size) count) (by omega)
      rw [← blocksForm_chunks_cons hB hpos]
      constructor
      · intro hform
        obtain ⟨b, u, v, ⟨hb, hu⟩, ⟨more, hmore, rfl⟩, rfl⟩ := hform
        obtain ⟨row, hrow, rfl⟩ := (Block.form_iff p hb u).1 hu
        obtain ⟨rest, hstores, rfl⟩ := (hrest _ _ _).1 hmore
        exact ⟨.cons hpos row rest,
          Blocks.stores_cons_iff.2 ⟨b, more, ⟨hb, hrow⟩, hstores, rfl⟩, rfl⟩
      · intro hblocks
        obtain ⟨blocks, hstores, rfl⟩ := hblocks
        cases blocks with
        | nil => exact absurd hpos (Nat.lt_irrefl 0)
        | cons hpos row rest =>
          obtain ⟨b, more, ⟨hb, hrow⟩, hmore, rfl⟩ := Blocks.stores_cons_iff.1 hstores
          exact ⟨b, _, _, ⟨hb, (Block.form_iff p hb _).2 ⟨row, hrow, rfl⟩⟩,
            ⟨more, (hrest _ _ _).2 ⟨rest, hmore, rfl⟩, rfl⟩, rfl⟩
    · obtain rfl : count = 0 := by omega
      rw [← blocksForm_chunks_nil hB]
      constructor
      · intro hform
        obtain ⟨rfl, rfl⟩ := hform
        exact ⟨.nil, ⟨rfl, fun _ => rfl⟩, rfl⟩
      · intro hblocks
        obtain ⟨blocks, hstores, rfl⟩ := hblocks
        cases blocks with
        | nil => exact ⟨List.eq_nil_of_length_eq_zero hstores.1, rfl⟩
        | cons hpos row rest => exact absurd hpos (Nat.lt_irrefl 0)

theorem decodeBlocks_reads_blocks (hB : 0 < Layout.blockLength size) (p : Record size) :
    Reads Layout.headroom (decodeBlocks (ceilDiv count (Layout.blockLength size)) count p)
      fun records bs => ∃ blocks : Blocks size count, blocks.Stores p records ∧ bs = blocks.bytes :=
  (decodeBlocks_reads hB count p).congr (blocksForm_iff hB p)

namespace Blocks

theorem exists_stores (blocks : Blocks size count) (p : Record size) :
    ∃ records, blocks.Stores p records := by
  refine ⟨Record.ofColumns (Vector.ofFn fun k : Fin size =>
    (⟨(Delta.decode (p.get k) (blocks.values k)).toArray, by simp [blocks.values_length]⟩ :
      Vector UInt8 count)), by simp [Record.ofColumns], fun k => ?_⟩
  rw [Record.column_ofColumns]
  simp [get_eq_getElem, Delta.encode_decode]

/-- Where enough bytes follow, no blocks begin with other blocks of as many records. -/
theorem bytes_append_inj (hB : 0 < Layout.blockLength size) {blocks blocks' : Blocks size count}
    {u v : List UInt8} (hu : Layout.headroom ≤ u.length) (hv : Layout.headroom ≤ v.length)
    (heq : blocks.bytes ++ u = blocks'.bytes ++ v) :
    (∀ k, blocks.values k = blocks'.values k) ∧ u = v := by
  obtain ⟨records, hstores⟩ := blocks.exists_stores (Vector.replicate size 0)
  obtain ⟨records', hstores'⟩ := blocks'.exists_stores (Vector.replicate size 0)
  obtain ⟨rfl, rfl⟩ := (decodeBlocks_reads_blocks hB _).append_inj ⟨blocks, hstores, rfl⟩
    ⟨blocks', hstores', rfl⟩ hu hv heq
  exact ⟨fun k => (hstores.2 k).symm.trans (hstores'.2 k), rfl⟩

end Blocks

/-- A decoder accepts exactly the strings that are a readable format byte, blocks, and as many
bytes as a tail has. -/
theorem read_eq_ok_iff_blocks {size : VertexSize} {stream : List UInt8} {format : FormatByte}
    {records : List (Record size.val)} :
    (∃ r, read size count (Reader.ofBytes stream) = .ok (format, records) r) ↔
      ∃ (blocks : Blocks size.val count) (tail : List UInt8),
        format.version ≤ FormatByte.maxDecodeVersion ∧ blocks.Stores (seed size stream) records ∧
        tail.length = Layout.tailSize size.val ∧ stream = format.raw :: (blocks.bytes ++ tail) := by
  have hB := Layout.blockLength_pos size
  rw [read_eq_ok_iff]
  constructor
  · intro h
    obtain ⟨hcount, body, tail, hversion, hform, htail, rfl⟩ := h
    obtain ⟨blocks, hstores, rfl⟩ := (blocksForm_iff hB _ _ _).1 ⟨hcount, hform⟩
    rw [← seed_stream format.raw blocks.bytes htail] at hstores
    exact ⟨blocks, tail, hversion, hstores, htail, rfl⟩
  · intro h
    obtain ⟨blocks, tail, hversion, hstores, htail, rfl⟩ := h
    rw [seed_stream _ _ htail] at hstores
    obtain ⟨hcount, hform⟩ := (blocksForm_iff hB _ _ _).2 ⟨blocks, hstores, rfl⟩
    exact ⟨hcount, blocks.bytes, tail, hversion, hform, htail, rfl⟩

end DeltaStream
end VertexPack
