import VertexPack.Proofs.Admission
import VertexPack.Proofs.Guards
import VertexPack.Proofs.Predictors
import VertexPack.Proofs.Records
import VertexPack.Proofs.StreamForm

/-! The decoder of delta streams with guards, block by block over the destination. It does what the
unguarded decoder does, so no access of the decoder ever leaves its range. -/
namespace VertexPack
open Access

namespace Guarded
variable {ε : Type}

def unpackFields (w : Width) : Guarded CursorError Group := do
  let perByte ← access (quotient 8 w.bits)
  let size ← access (quotient Layout.groupSize perByte)
  let fixed ← bytes size
  Vector.ofFnM fun i => do
    let slot ← access (quotient i perByte)
    let place ← access (remainder i perByte)
    let b ← access fixed[slot]?
    let shift ← access (difference 8 (w.bits * (place + 1)))
    let shifted ← access (shiftRight b shift)
    if shifted &&& w.sentinel = w.sentinel then byte else pure (shifted &&& w.sentinel)

def unpack : Width → Guarded CursorError Group
  | .one => pure (Vector.replicate 16 0)
  | .two => unpackFields .two
  | .four => unpackFields .four
  | .eight => do
    let bs ← bytes 16
    access (exactly 16 bs)

def groups (n : Nat) : Guarded StreamError (Vector Group n) :=
  adapt .ofCursor do
    let header ← bytes (Width.headerSize n)
    Vector.ofFnM fun i => do
      ensure Layout.headroom
      let b ← access header[i.val / 4]?
      let code ← access (shiftRight b (i.val % 4 * 2))
      unpack (.ofCode code)

def deltas {m : Nat} (n : Nat) (groups : Vector Group m) : Guarded ε (Vector UInt8 n) :=
  Vector.ofFnM fun i => do
    let g ← access groups.toList[i.val / 16]?
    access g.toList[i.val % 16]?

def column (p : Predictor) (n : Nat) (k : Fin p.size) : Guarded StreamError (Vector UInt8 n) := do
  let groups ← groups (Layout.groupCount n)
  let start ← access p.bytes[k.val]?
  let deltas ← deltas n groups
  pure ⟨(Delta.decode start deltas.toList).toArray, by simp⟩

def blockCount (length size : Nat) : Guarded StreamError Nat := do
  let n ← access (quotient length size)
  if n = 0 ∨ n > Layout.maxBlockLength then fail (.invalidBlockLength n Layout.maxBlockLength)
  else
    let extra ← access (remainder length size)
    if extra ≠ 0 then
      let more ← access (Capacity.add n 1)
      let needed ← access (Capacity.mul more size)
      fail (.sourceTooSmall needed length)
    else pure n

/-- The number of groups that there is room for while a block is read. -/
def groupRoom : Nat := Layout.maxBlockLength / Layout.groupSize

def block (p : Predictor) (length : Nat) : Guarded StreamError (List UInt8 × Predictor) := do
  let n ← blockCount length p.size
  check (Layout.groupCount n ≤ groupRoom)
  let columns ← Vector.ofFnM (column p n)
  let found := Record.flatten (Record.ofColumns columns)
  let start ← access (difference found.length p.size)
  let last ← access (slice found start found.length)
  let record ← access (exactly p.size last)
  pure (found, { p with record })

def blocks (p : Predictor) : List (List UInt8) → Guarded StreamError (List UInt8)
  | [] => pure []
  | b :: bs => do
    let (found, next) ← block p b.length
    let more ← blocks next bs
    pure (found ++ more)

def formatByte : Guarded FrameError FormatByte := do
  let b ← adapt .cursor byte
  ofExcept (FormatByte.parse b)

def body (size : VertexSize) (front : List UInt8) : Guarded StreamError (List UInt8) := do
  let seed ← adapt .ofCursor (tail size.val)
  let p ← ofExcept (Predictor.ofBytes seed)
  let length ← access (Layout.blockLength? size.val)
  let stride ← access (Capacity.mul length size.val)
  check (0 < stride)
  let found ← blocks p (chunks stride front)
  expectLeft (Layout.tailSize size.val)
  pure found

def deltaStream (size : VertexSize) (front : List UInt8) :
    Guarded StreamError (List UInt8) := do
  let least ← access (Capacity.add 1 size.val)
  let present ← remaining
  if present < least then fail (.truncated least present)
  else
    let _ ← adapt .ofFrame formatByte
    body size front

end Guarded

namespace Guards
variable {ε : Type}

theorem unpackFields (w : Width) : Guards (Guarded.unpackFields w) (Group.unpackFields w) := by
  have hbits : 0 < w.bits ∧ 0 < w.perByte ∧ 16 ≤ w.fixedSize * w.perByte ∧
      w.bits * w.perByte ≤ 8 := by
    cases w <;> decide
  obtain ⟨hpos, hper, hfixed, hfit⟩ := hbits
  refine access_bind (quotient_of_pos hpos) (access_bind (quotient_of_pos hper)
    ((bytes _).bind_map fun fixed => ofFnM fun i => ?_))
  have hplace : i.val % w.perByte < w.perByte := Nat.mod_lt _ hper
  have hslot : i.val / w.perByte < fixed.1.length := by
    rw [fixed.2]
    exact Nat.div_lt_of_lt_mul (by rw [Nat.mul_comm]; exact Nat.lt_of_lt_of_le i.isLt hfixed)
  have hentry : fixed.1[i.val / w.perByte]? = some (fixed.1.getD (i.val / w.perByte) 0) := by
    rw [List.getElem?_eq_getElem hslot, List.getD_eq_getElem _ _ hslot]
  have hshift : w.bits * (i.val % w.perByte + 1) ≤ 8 :=
    Nat.le_trans (Nat.mul_le_mul_left _ hplace) hfit
  have hwidth : 8 - w.bits * (i.val % w.perByte + 1) < 8 := by
    have hfield : 0 < w.bits * (i.val % w.perByte + 1) := Nat.mul_pos hpos (Nat.succ_pos _)
    omega
  refine access_bind (quotient_of_pos hper) (access_bind (remainder_of_pos hper)
    (access_bind hentry (access_bind (difference_of_le hshift)
      (access_bind (shiftRight_of_lt hwidth) ?_))))
  exact ite (fun _ => byte) fun _ => pure _

theorem unpack (w : Width) : Guards (Guarded.unpack w) (Group.unpack w) := by
  cases w with
  | one => exact pure _
  | two => exact unpackFields .two
  | four => exact unpackFields .four
  | eight =>
    refine (bytes 16).bind_map fun bs => ?_
    rw [exactly_of_eq bs.2]
    exact pure _

theorem groups (n : Nat) : Guards (Guarded.groups n) (Channel.decodeGroups n) := by
  refine adapt ((bytes _).bind_map fun header => ofFnM fun i => (ensure _).bind fun _ => ?_)
  have hslot : i.val / 4 < header.1.length := by
    have hi := i.isLt
    rw [header.2, Width.headerSize]
    omega
  have hentry : header.1[i.val / 4]? = some (header.1.getD (i.val / 4) 0) := by
    rw [List.getElem?_eq_getElem hslot, List.getD_eq_getElem _ _ hslot]
  refine access_bind hentry (access_bind (shiftRight_of_lt (by omega)) ?_)
  rw [Nat.mul_comm]
  exact unpack _

theorem entry_groups {n : Nat} (groups : Vector Group (Layout.groupCount n)) (i : Fin n) :
    ∃ g : Group, groups.toList[i.val / 16]? = some g ∧
      g.toList[i.val % 16]? = some ((Channel.deltas n groups).getD i 0) := by
  have hroom : n ≤ ceilDiv n 16 * 16 := le_ceilDiv_mul (by decide)
  have hi := i.isLt
  have hgroup : i.val / 16 < groups.toList.length := by
    rw [Vector.length_toList]
    change i.val / 16 < ceilDiv n 16
    omega
  have hplace : i.val % 16 < 16 := Nat.mod_lt _ (by decide)
  have hentry := getD_flatMap_toList hgroup ⟨i.val % 16, hplace⟩ 0
  simp only [Nat.div_add_mod] at hentry
  refine ⟨groups.toList[i.val / 16], List.getElem?_eq_getElem hgroup, ?_⟩
  rw [Channel.deltas, List.getD_eq_getElem?_getD, List.getElem?_take_of_lt hi,
    ← List.getD_eq_getElem?_getD, hentry, get_eq_getElem]
  simp [hplace]

theorem deltas_eq {n : Nat} (groups : Vector Group (Layout.groupCount n)) :
    (Guarded.deltas n groups : Guarded ε (Vector UInt8 n)) =
      Pure.pure ⟨(Channel.deltas n groups).toArray, by simp [Channel.deltas_length]⟩ := by
  have hstep (i : Fin n) : (do
      let g ← Guarded.access groups.toList[i.val / 16]?
      Guarded.access g.toList[i.val % 16]? : Guarded ε UInt8) =
        Pure.pure ((Channel.deltas n groups).getD i 0) := by
    obtain ⟨g, hgroup, hentry⟩ := entry_groups groups i
    rw [hgroup, Guarded.access_some_bind, hentry]
    rfl
  rw [Guarded.deltas, funext hstep, Vector.ofFnM_pure]
  congr 1
  apply Vector.ext
  intro i hi
  simp [Channel.deltas_length]

theorem column (p : Predictor) (n : Nat) (k : Fin p.size) :
    Guards (Guarded.column p n k) (Channel.decode (p.record.get k) n) := by
  have hstart : p.bytes[k.val]? = some (p.record.get k) := by
    rw [Predictor.bytes, get_eq_getElem]
    simp
  refine (groups _).bind fun found => access_bind hstart ?_
  rw [deltas_eq]
  exact pure _

theorem blockCount_eq {length size : Nat} (hpos : 0 < size) (hmax : size ≤ 256) :
    Guarded.blockCount length size = Guarded.ofExcept (Block.count length size) := by
  rw [Guarded.blockCount, quotient_of_pos hpos, remainder_of_pos hpos]
  simp only [Guarded.access_some_bind, Block.count]
  by_cases hn : length / size = 0 ∨ length / size > Layout.maxBlockLength
  · rw [if_pos hn, if_pos hn]
    rfl
  · rw [if_neg hn, if_neg hn]
    by_cases hextra : length % size ≠ 0
    · have hle : length / size ≤ 256 := Nat.le_of_not_lt fun h => hn (.inr h)
      have hmore : Capacity.add (length / size) 1 = some (length / size + 1) :=
        Capacity.checked_eq_some_iff.2 ⟨by unfold Capacity.limit; omega, rfl⟩
      have hneeded : Capacity.mul (length / size + 1) size = some ((length / size + 1) * size) := by
        have hprod : (length / size + 1) * size ≤ (256 + 1) * 256 :=
          Nat.mul_le_mul (Nat.add_le_add_right hle 1) hmax
        exact Capacity.checked_eq_some_iff.2 ⟨by unfold Capacity.limit; omega, rfl⟩
      rw [if_pos hextra, if_pos hextra, hmore, Guarded.access_some_bind, hneeded]
      rfl
    · rw [if_neg hextra, if_neg hextra]
      rfl

theorem block {p : Predictor} {n : Nat} (hpos : 0 < n) (hmax : n ≤ Layout.maxBlockLength) :
    Guards (Guarded.block p (n * p.size)) (Block.decode p.record n >>= fun records =>
      Pure.pure (Record.flatten records, p.advance records)) := by
  have hcount := Block.count_mul p.size_pos hpos hmax
  have hgroups : Layout.groupCount n ≤ Guarded.groupRoom :=
    ceilDiv_le_of_le_mul (by decide) hmax
  have hrecords (columns : Vector (Vector UInt8 n) p.size) : Record.ofColumns columns ≠ [] := by
    rw [← List.length_pos_iff, Record.ofColumns, List.length_ofFn]
    exact hpos
  rw [Guarded.block, blockCount_eq p.size_pos p.size_le, hcount]
  refine check_bind hgroups ?_
  rw [Block.decode, bind_assoc]
  refine (ofFnM fun k => column p n k).bind fun columns => ?_
  obtain ⟨hle, hlast⟩ := Record.flatten_last p.record (hrecords columns)
  have hslice := slice_of_le (Record.flatten (Record.ofColumns columns))
    (Nat.sub_le _ p.size) (Nat.le_refl _)
  rw [hlast, List.take_of_length_le (by simp; omega)] at hslice
  refine access_bind (difference_of_le hle) (access_bind hslice
    (access_bind (exactly_of_eq Vector.length_toList) ?_))
  exact pure _

theorem blocks {p : Predictor} {count : Nat} {front : List UInt8}
    (hB : 0 < Layout.blockLength p.size) (hfront : front.length = count * p.size) :
    Guards (Guarded.blocks p (chunks (Layout.blockLength p.size * p.size) front))
      (DeltaStream.decodeBlocks (ceilDiv count (Layout.blockLength p.size)) count p.record >>=
        fun records => Pure.pure (Record.flatten records)) := by
  have hstride : 0 < Layout.blockLength p.size * p.size := Nat.mul_pos hB p.size_pos
  -- Each block is as long as the count allows, so the induction is on all smaller counts.
  induction count using Nat.strongRecOn generalizing p front with
  | _ count ih =>
    by_cases hpos : 0 < count
    · have hne : front ≠ [] := by
        rw [← List.length_pos_iff, hfront]
        exact Nat.mul_pos hpos p.size_pos
      have hmin : count - min (Layout.blockLength p.size) count =
          count - Layout.blockLength p.size := by omega
      have hfirst : (front.take (Layout.blockLength p.size * p.size)).length =
          min (Layout.blockLength p.size) count * p.size := by
        rw [List.length_take, hfront, Nat.mul_min_mul_right]
      have hrest : (front.drop (Layout.blockLength p.size * p.size)).length =
          (count - Layout.blockLength p.size) * p.size := by
        rw [List.length_drop, hfront, Nat.mul_sub_right_distrib]
      have hblock := block (p := p) (n := min (Layout.blockLength p.size) count) (by omega)
        (Nat.le_trans (Nat.min_le_left _ _) (Nat.min_le_right _ _))
      rw [chunks_of_ne_nil hstride hne, ceilDiv_eq_succ hB hpos, Guarded.blocks, hfirst,
        DeltaStream.decodeBlocks, hmin, bind_assoc]
      refine hblock.bind_map fun records => ?_
      have hmore := ih _ (by omega) (p := p.advance records) hB hrest hstride
      rw [bind_assoc]
      exact hmore.bind_map fun more => Record.flatten_append records more ▸ pure _
    · obtain rfl : count = 0 := by omega
      rw [Nat.zero_mul, List.length_eq_zero_iff] at hfront
      rw [hfront, chunks_nil hstride, ceilDiv_zero hB]
      exact pure _

theorem formatByte : Guards Guarded.formatByte FormatByte.read := by
  refine byte.adapt.bind fun b => ?_
  cases FormatByte.parse b with
  | ok f => exact pure f
  | error e => exact fail e

theorem blocks_left {size : VertexSize} {p : Record size.val} {count : Nat} {front : List UInt8}
    (hfront : front.length = count * size.val) :
    Guards (do
      let found ← Guarded.blocks ⟨size.val, p, size.pos, size.le_max⟩
        (chunks (Layout.blockLength size.val * size.val) front)
      Guarded.expectLeft (Layout.tailSize size.val)
      Pure.pure found)
    (DeltaStream.readBlocks size count p >>= fun records =>
      Pure.pure (Record.flatten records)) := by
  have hblocks := blocks (p := ⟨size.val, p, size.pos, size.le_max⟩)
    (Layout.blockLength_pos size) hfront
  rw [DeltaStream.readBlocks, bind_assoc]
  refine hblocks.bind_map fun records => ?_
  intro r _
  refine GuardsAt.expectLeft (fun hleft => ?_) fun hleft => ?_
  · change ((if r.remaining ≠ Layout.tailSize size.val then _ else _ : Decoding _) >>= _) r = _
    rw [if_neg (not_not.2 hleft)]
    rfl
  · change ((if r.remaining ≠ Layout.tailSize size.val then _ else _ : Decoding _) >>= _) r = _
    rw [if_pos hleft]
    rfl

theorem body {size : VertexSize} {count : Nat} {front : List UInt8} {r : Reader}
    (hfront : front.length = count * size.val) (hlim : r.data.length < Capacity.limit)
    (hle : size.val ≤ r.data.length) :
    GuardsAt r (Guarded.body size front)
      (DeltaStream.readBlocks size count (DeltaStream.seed size r.data) >>= fun records =>
        Pure.pure (Record.flatten records)) := by
  have hsize := size.le_max
  have hseed : (r.data.drop (r.data.length - size.val)).length = size.val := by
    rw [List.length_drop]
    omega
  have hlength : Layout.blockLength? size.val = some (Layout.blockLength size.val) :=
    if_neg (Nat.pos_iff_ne_zero.1 size.pos)
  have hpos : 0 < Layout.blockLength size.val * size.val :=
    Nat.mul_pos (Layout.blockLength_pos size) size.pos
  have hstride : Capacity.mul (Layout.blockLength size.val) size.val =
      some (Layout.blockLength size.val * size.val) := by
    have hprod : Layout.blockLength size.val * size.val ≤ 256 * 256 :=
      Nat.mul_le_mul (Nat.min_le_right _ _) hsize
    exact Capacity.checked_eq_some_iff.2 ⟨by unfold Capacity.limit; omega, rfl⟩
  have hblocks := blocks_left (p := DeltaStream.seed size r.data) hfront r hlim
  refine GuardsAt.congr (bind_of_ok (adaptExcept_of_ok (Guarded.tail_of_le hle))) rfl ?_
  rw [Predictor.ofBytes_of_length hseed]
  exact GuardsAt.access_bind hlength
    (GuardsAt.access_bind hstride (GuardsAt.check_bind hpos hblocks))

theorem deltaStream {size : VertexSize} {count : Nat} {front : List UInt8}
    (hfront : front.length = count * size.val) :
    Guards (Guarded.deltaStream size front)
      (DeltaStream.read size count >>= fun found => Pure.pure (Record.flatten found.2)) := by
  intro r hlim
  have hleast : Capacity.add 1 size.val = some (1 + size.val) :=
    Capacity.checked_eq_some_iff.2 ⟨by have := size.le_max; unfold Capacity.limit; omega, rfl⟩
  refine GuardsAt.access_bind hleast ?_
  by_cases hshort : r.remaining < 1 + size.val
  · refine GuardsAt.of_error (bind_of_error (DeltaStream.read_of_lt hshort)) ?_
    rw [bind_of_ok (Guarded.remaining_eq r), if_pos hshort]
    rfl
  · have hlong := Nat.le_of_not_lt hshort
    have hposition := r.position_add_remaining
    have hbody (r' : Reader) (hsame : r'.data = r.data) : GuardsAt r' (Guarded.body size front)
        (DeltaStream.readBlocks size count (DeltaStream.seed size r.data) >>= fun records =>
          Pure.pure (Record.flatten records)) :=
      hsame ▸ body hfront (hsame ▸ hlim) (by rw [hsame]; omega)
    refine GuardsAt.congr
      ((bind_of_ok (Guarded.remaining_eq r)).trans (congrFun (if_neg hshort) r))
      (bind_congr_run (DeltaStream.read_of_le hlong)) ?_
    rw [bind_assoc]
    refine (formatByte.adapt r hlim).bind fun format r' hsame => ?_
    rw [bind_assoc]
    exact hbody r' hsame

end Guards
end VertexPack
