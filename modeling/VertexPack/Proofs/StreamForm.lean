import VertexPack.DeltaStream
import VertexPack.Proofs.ChannelForm
import VertexPack.Proofs.Records
import VertexPack.Proofs.Admission

/-! The byte strings that a delta stream is read from. Main statement: a stream is read
exactly if it is a readable format byte, blocks in some form, and as many bytes as a tail
has; the records are the ones that the blocks stand for when the first is predicted from
the end of the tail. -/
namespace VertexPack

namespace Block
variable {size : Nat}

def Form (p : Record size) (records : List (Record size)) (bs : List UInt8) : Prop :=
  ∃ parts : Fin size → List UInt8,
    (∀ k, Channel.ColumnForm (p.get k) (Record.column k records) (parts k)) ∧
    bs = (List.ofFn parts).flatten

theorem decode_reads (p : Record size) (n : Nat) :
    Reads Layout.headroom (decode p n) fun records bs =>
      records.length = n ∧ Form p records bs := by
  have hcolumns := Reads.ofFnM fun k : Fin size => Channel.decode_reads (p.get k) n
  refine (hcolumns.map (f := Record.ofColumns)).congr fun records bs => ?_
  constructor
  · intro h
    obtain ⟨columns, ⟨parts, hparts, rfl⟩, rfl⟩ := h
    refine ⟨by simp [Record.ofColumns], parts, fun k => ?_, rfl⟩
    rw [Record.column_ofColumns]
    exact hparts k
  · intro h
    obtain ⟨rfl, parts, hparts, rfl⟩ := h
    refine ⟨_, ⟨parts, fun k => ?_, rfl⟩, (Record.ofColumns_column records).symm⟩
    simpa using hparts k

end Block

namespace FormatByte

theorem tag_or {v : UInt8} (h : v ≤ maxVersion) :
    (tag ||| v) &&& 0xF0 = tag ∧ (tag ||| v) &&& 0x0F = v := by
  obtain ⟨a, rfl⟩ := Width.exists_fin_of_le h
  revert a
  decide

theorem nibbles (b : UInt8) : (b &&& 0xF0) ||| (b &&& 0x0F) = b := by
  have h : ∀ i : Fin 256,
      (UInt8.ofNat i &&& 0xF0) ||| (UInt8.ofNat i &&& 0x0F) = UInt8.ofNat i := by
    decide +kernel
  simpa using h ⟨b.toNat, b.toNat_lt⟩

theorem parse_raw (f : FormatByte) :
    parse f.raw =
      if f.version > maxDecodeVersion then .error (.unsupportedVersion f.version) else .ok f := by
  obtain ⟨v, hv⟩ := f
  obtain ⟨htag, hversion⟩ := tag_or hv
  simp only [parse, raw, htag, hversion, ne_eq, not_true_eq_false, if_false]

theorem eq_raw_of_parse {b : UInt8} {f : FormatByte} (h : parse b = .ok f) :
    f.version ≤ maxDecodeVersion ∧ b = f.raw := by
  unfold parse at h
  split at h
  · cases h
  · rename_i htag
    split at h
    · cases h
    · rename_i hversion
      cases h
      refine ⟨UInt8.not_lt.1 hversion, ?_⟩
      rw [raw, ← not_not.1 htag, nibbles]

theorem read_reads {h : Nat} :
    Reads h read fun f bs => f.version ≤ maxDecodeVersion ∧ bs = [f.raw] := by
  refine (Reads.bind (R := fun b f bs => parse b = .ok f ∧ bs = []) Reads.byte.adaptExcept
    fun b => ?_).congr fun f bs => ?_
  · cases hb : parse b with
    | ok f =>
      refine (Reads.pure f).congr fun g bs => ?_
      rw [Except.ok.injEq, eq_comm]
    | error e =>
      constructor
      · intro r f r' hf
        cases hf
      · intro r f r' bs hf
        cases hf.1
  constructor
  · intro hf
    obtain ⟨b, u, v, rfl, ⟨hb, rfl⟩, rfl⟩ := hf
    obtain ⟨hversion, rfl⟩ := eq_raw_of_parse hb
    exact ⟨hversion, rfl⟩
  · intro hf
    obtain ⟨hversion, rfl⟩ := hf
    refine ⟨f.raw, [f.raw], [], rfl, ⟨?_, rfl⟩, rfl⟩
    rw [parse_raw, if_neg (UInt8.not_lt.2 hversion)]

theorem read_of_lt {r : Reader} {f : FormatByte} {rest : List UInt8} (hr : r.rest = f.raw :: rest)
    (h : maxDecodeVersion < f.version) :
    ∃ r', read r = .error (.unsupportedVersion f.version) r' := by
  obtain ⟨r', hmove, _⟩ := Reader.exists_moves (r := r) (u := [f.raw]) hr
  have hbyte : Reader.byte r = .ok f.raw r' := Reads.byte.complete rfl hmove (Nat.zero_le _)
  refine ⟨r', ?_⟩
  rw [read, bind_of_ok (adaptExcept_of_ok hbyte), parse_raw, if_pos h]
  rfl

end FormatByte

namespace DeltaStream
variable {size : Nat}

/-- Consecutive blocks; the first is predicted from `p`, every other from the last record
before it. -/
def BlocksForm : Record size → List (List (Record size)) → List UInt8 → Prop
  | _, [], bs => bs = []
  | p, b :: rest, bs => ∃ u v, Block.Form p b u ∧ BlocksForm (b.getLastD p) rest v ∧ bs = u ++ v

theorem blocksForm_chunks_nil (hB : 0 < Layout.blockLength size) (p : Record size)
    (records : List (Record size)) (bs : List UInt8) :
    records = [] ∧ bs = [] ↔
      records.length = 0 ∧ BlocksForm p (chunks (Layout.blockLength size) records) bs := by
  rw [List.length_eq_zero_iff]
  constructor
  · intro h
    obtain ⟨rfl, rfl⟩ := h
    rw [chunks_nil hB]
    exact ⟨rfl, rfl⟩
  · intro h
    obtain ⟨rfl, hform⟩ := h
    rw [chunks_nil hB] at hform
    exact ⟨rfl, hform⟩

theorem blocksForm_chunks_cons (hB : 0 < Layout.blockLength size) {count : Nat} (hpos : 0 < count)
    (p : Record size) (records : List (Record size)) (bs : List UInt8) :
    (∃ b u v, (b.length = min (Layout.blockLength size) count ∧ Block.Form p b u) ∧
      (∃ more, (more.length = count - min (Layout.blockLength size) count ∧
        BlocksForm (b.getLastD p) (chunks (Layout.blockLength size) more) v) ∧
        records = b ++ more) ∧ bs = u ++ v) ↔
      records.length = count ∧ BlocksForm p (chunks (Layout.blockLength size) records) bs := by
  constructor
  · intro h
    obtain ⟨b, u, v, ⟨hb, hu⟩, ⟨more, ⟨hmore, hv⟩, rfl⟩, rfl⟩ := h
    have hne : b ≠ [] := by
      apply List.length_pos_iff.1
      omega
    have hmore' (hlt : b.length < Layout.blockLength size) : more = [] := by
      apply List.eq_nil_of_length_eq_zero
      omega
    rw [chunks_cons hB hne (by omega) hmore']
    exact ⟨by rw [List.length_append]; omega, u, v, hu, hv, rfl⟩
  · intro h
    obtain ⟨hlen, hform⟩ := h
    have hne : records ≠ [] := List.length_pos_iff.1 (hlen ▸ hpos)
    rw [chunks_of_ne_nil hB hne] at hform
    obtain ⟨u, v, hu, hv, rfl⟩ := hform
    refine ⟨records.take (Layout.blockLength size), u, v, ⟨?_, hu⟩,
      ⟨records.drop (Layout.blockLength size), ⟨?_, hv⟩, ?_⟩, rfl⟩
    · rw [List.length_take, hlen]
    · rw [List.length_drop, hlen]
      omega
    · rw [List.take_append_drop]

theorem decodeBlocks_reads (hB : 0 < Layout.blockLength size) (count : Nat) (p : Record size) :
    Reads Layout.headroom (decodeBlocks (ceilDiv count (Layout.blockLength size)) count p)
      fun records bs => records.length = count ∧
        BlocksForm p (chunks (Layout.blockLength size) records) bs := by
  -- The induction is on the number of blocks; what is left of the count settles the length
  -- of each of them.
  generalize hm : ceilDiv count (Layout.blockLength size) = m
  induction m generalizing count p with
  | zero =>
    have hcount : count = 0 := by
      have h := le_ceilDiv_mul (a := count) hB
      rw [hm] at h
      omega
    subst hcount
    exact (Reads.pure []).congr (blocksForm_chunks_nil hB p)
  | succ m ih =>
    have hpos : 0 < count := by
      apply Nat.pos_of_ne_zero
      intro h
      rw [h, ceilDiv_zero hB] at hm
      cases hm
    have hmin : count - min (Layout.blockLength size) count = count - Layout.blockLength size := by
      omega
    have hrest :
        ceilDiv (count - min (Layout.blockLength size) count) (Layout.blockLength size) = m := by
      have h := ceilDiv_eq_succ hB hpos
      rw [hmin]
      omega
    have hblock := Block.decode_reads p (min (Layout.blockLength size) count)
    exact (hblock.bind fun b => (ih _ (b.getLastD p) hrest).map (f := fun more => b ++ more)).congr
      (blocksForm_chunks_cons hB hpos p)

def seed (size : VertexSize) (tail : List UInt8) : Record size.val :=
  Record.ofList size.val (tail.drop (tail.length - size.val))

/-- A readable format byte, blocks in some form, and as many bytes as a tail has. -/
def StreamForm (size : VertexSize) (format : FormatByte) (records : List (Record size.val))
    (stream : List UInt8) : Prop :=
  ∃ body tail, format.version ≤ FormatByte.maxDecodeVersion ∧
    BlocksForm (seed size tail) (chunks (Layout.blockLength size.val) records) body ∧
    tail.length = Layout.tailSize size.val ∧ stream = format.raw :: (body ++ tail)

def readBlocks (size : VertexSize) (count : Nat) (p : Record size.val) :
    Decoding (List (Record size.val)) := do
  let records ← decodeBlocks (ceilDiv count (Layout.blockLength size.val)) count p
  let left := (← get).remaining
  if left ≠ Layout.tailSize size.val then
    throw (.trailingData (Layout.tailSize size.val) left)
  pure records

variable {size : VertexSize} {count : Nat}

theorem read_of_lt {r : Reader} (h : r.remaining < 1 + size.val) :
    read size count r = .error (.truncated (1 + size.val) r.remaining) r := by
  have hshort : ¬ hasAtLeast (1 + size.val) r.rest = true := by
    rw [hasAtLeast_iff]
    exact Nat.not_le.2 h
  change (if ¬ hasAtLeast (1 + size.val) r.rest = true then _ else _ : Decoding _) r = _
  rw [if_pos hshort]
  rfl

theorem read_of_le {r : Reader} (h : 1 + size.val ≤ r.remaining) :
    read size count r = (do
      let format ← EStateM.adaptExcept StreamError.ofFrame FormatByte.read
      let records ← readBlocks size count (seed size r.data)
      pure (format, records)) r := by
  have hlong : ¬ ¬ hasAtLeast (1 + size.val) r.rest = true := by
    rw [not_not, hasAtLeast_iff]
    exact h
  have htail : Layout.tailRecord size.val r = .ok (r.data.drop (r.data.length - size.val)) := by
    have hdata := r.rest_suffix.length_le
    unfold Reader.remaining at h
    rw [Layout.tailRecord, Reader.tail, if_pos (by omega)]
    rfl
  change (if ¬ hasAtLeast (1 + size.val) r.rest = true then _ else _ : Decoding _) r = _
  rw [if_neg hlong]
  refine congrFun (bind_congr fun format => ?_) r
  rw [htail, readBlocks, bind_assoc]
  refine bind_congr fun records => ?_
  rw [bind_assoc]
  refine bind_congr fun r' => ?_
  dsimp only
  split
  · rfl
  · rfl

section Blocks
variable {p : Record size.val} {records : List (Record size.val)} {r r' : Reader}

theorem readBlocks_of_decodeBlocks_ok
    (h : decodeBlocks (ceilDiv count (Layout.blockLength size.val)) count p r = .ok records r') :
    readBlocks size count p r =
      if r'.remaining = Layout.tailSize size.val then .ok records r'
      else .error (.trailingData (Layout.tailSize size.val) r'.remaining) r' := by
  rw [readBlocks, bind_of_ok h]
  change (if r'.remaining ≠ Layout.tailSize size.val then _ else _ : Decoding _) r' = _
  by_cases hleft : r'.remaining = Layout.tailSize size.val
  · rw [if_pos hleft, if_neg (not_not.2 hleft)]
    rfl
  · rw [if_neg hleft, if_pos hleft]
    rfl

theorem readBlocks_of_decodeBlocks_error {e : StreamError}
    (h : decodeBlocks (ceilDiv count (Layout.blockLength size.val)) count p r = .error e r') :
    readBlocks size count p r = .error e r' := by
  rw [readBlocks, bind_of_error h]

theorem readBlocks_eq_ok_iff :
    readBlocks size count p r = .ok records r' ↔
      records.length = count ∧ ∃ body,
        BlocksForm p (chunks (Layout.blockLength size.val) records) body ∧
        r.Moves body r' ∧ r'.remaining = Layout.tailSize size.val := by
  have hblocks := decodeBlocks_reads (Layout.blockLength_pos size) count p
  constructor
  · intro h
    cases hrun : decodeBlocks (ceilDiv count (Layout.blockLength size.val)) count p r with
    | error e r₁ =>
      rw [readBlocks_of_decodeBlocks_error hrun] at h
      cases h
    | ok found r₁ =>
      rw [readBlocks_of_decodeBlocks_ok hrun] at h
      by_cases hleft : r₁.remaining = Layout.tailSize size.val
      · rw [if_pos hleft] at h
        cases h
        obtain ⟨body, ⟨hlen, hform⟩, hmove⟩ := hblocks.sound hrun
        exact ⟨hlen, body, hform, hmove, hleft⟩
      · rw [if_neg hleft] at h
        cases h
  · intro h
    obtain ⟨hlen, body, hform, hmove, hleft⟩ := h
    have hroom := Layout.headroom_le_tailSize size.val
    rw [← hleft] at hroom
    rw [readBlocks_of_decodeBlocks_ok (hblocks.complete ⟨hlen, hform⟩ hmove hroom), if_pos hleft]

end Blocks

theorem seed_append (u tail : List UInt8) (h : size.val ≤ tail.length) :
    seed size (u ++ tail) = seed size tail := by
  rw [seed, seed, List.length_append, List.drop_append,
    List.drop_of_length_le (by omega : u.length ≤ u.length + tail.length - size.val),
    List.nil_append]
  congr 2
  omega

theorem seed_stream (format : UInt8) (body : List UInt8) {tail : List UInt8}
    (htail : tail.length = Layout.tailSize size.val) :
    seed size (format :: (body ++ tail)) = seed size tail := by
  rw [← List.cons_append, seed_append _ _ (htail ▸ Layout.size_le_tailSize size.val)]

theorem read_cons (count : Nat) {format : FormatByte} {rest : List UInt8}
    (hversion : format.version ≤ FormatByte.maxDecodeVersion) (hlen : size.val ≤ rest.length) :
    ∃ r, r.rest = rest ∧ read size count (.ofBytes (format.raw :: rest)) =
      (do let records ← readBlocks size count (seed size (format.raw :: rest))
          pure (format, records)) r := by
  obtain ⟨r, hmove, hrest⟩ := Reader.exists_moves (r := .ofBytes (format.raw :: rest))
    (u := [format.raw]) rfl
  have hformat := (FormatByte.read_reads.adaptExcept (f := StreamError.ofFrame)).complete
    ⟨hversion, rfl⟩ hmove (Nat.zero_le _)
  have hroom : 1 + size.val ≤ (Reader.ofBytes (format.raw :: rest)).remaining := by
    simp only [Reader.remaining, Reader.ofBytes, List.length_cons]
    omega
  refine ⟨r, hrest, ?_⟩
  rw [read_of_le hroom, bind_of_ok hformat]
  rfl

theorem streamForm_of_read_eq_ok {stream : List UInt8} {format : FormatByte}
    {records : List (Record size.val)} {r : Reader}
    (h : read size count (Reader.ofBytes stream) = .ok (format, records) r) :
    records.length = count ∧ StreamForm size format records stream := by
  by_cases hlen : 1 + size.val ≤ (Reader.ofBytes stream).remaining
  · rw [read_of_le hlen] at h
    obtain ⟨f, r₁, hf, h⟩ := bind_eq_ok_iff.1 h
    obtain ⟨found, r₂, hread, h⟩ := bind_eq_ok_iff.1 h
    cases h
    obtain ⟨u, ⟨hversion, rfl⟩, hmove⟩ := (FormatByte.read_reads (h := 0)).adaptExcept.sound hf
    obtain ⟨hcount, body, hform, hmove', hleft⟩ := readBlocks_eq_ok_iff.1 hread
    have hstream : stream = format.raw :: (body ++ r.rest) := by
      simpa [Reader.ofBytes] using (hmove.trans hmove').rest_eq
    change BlocksForm (seed size stream) _ body at hform
    rw [hstream, seed_stream _ _ hleft] at hform
    exact ⟨hcount, body, r.rest, hversion, hform, hleft, hstream⟩
  · rw [read_of_lt (Nat.lt_of_not_le hlen)] at h
    cases h

theorem read_of_streamForm {stream : List UInt8} {format : FormatByte}
    {records : List (Record size.val)} (hcount : records.length = count)
    (h : StreamForm size format records stream) :
    ∃ r, read size count (Reader.ofBytes stream) = .ok (format, records) r := by
  obtain ⟨body, tail, hversion, hform, htail, rfl⟩ := h
  have hlen : size.val ≤ (body ++ tail).length := by
    rw [List.length_append, htail]
    exact Nat.le_add_left_of_le (Layout.size_le_tailSize size.val)
  obtain ⟨r₁, hrest, hread⟩ := read_cons count hversion hlen
  obtain ⟨r₂, hmove, hrest'⟩ := Reader.exists_moves hrest
  have hleft : r₂.remaining = Layout.tailSize size.val := by rw [Reader.remaining, hrest', htail]
  rw [← seed_stream format.raw body htail] at hform
  have hblocks := readBlocks_eq_ok_iff.2 ⟨hcount, body, hform, hmove, hleft⟩
  refine ⟨r₂, ?_⟩
  rw [hread, bind_of_ok hblocks]
  rfl

/-- A decoder accepts exactly the streams in form, and finds the records they stand for. -/
theorem read_eq_ok_iff {stream : List UInt8} {format : FormatByte}
    {records : List (Record size.val)} :
    (∃ r, read size count (Reader.ofBytes stream) = .ok (format, records) r) ↔
      records.length = count ∧ StreamForm size format records stream := by
  constructor
  · intro h
    obtain ⟨r, h⟩ := h
    exact streamForm_of_read_eq_ok h
  · intro h
    exact read_of_streamForm h.1 h.2

end DeltaStream
end VertexPack
