import VertexPack.Proofs.Admission
import VertexPack.Proofs.PlaneChunks
import VertexPack.Proofs.Words

/-! The byte strings that a plane stream is read from. A stream is cut into the chunks of its
word columns, in one way only, and every concatenation of as many chunks is a stream. -/
namespace VertexPack.PlaneStream
open Plane

def foldedWords {m : Nat} (column : Fin m → Chunk) : List UInt32 :=
  (List.ofFn fun i => (column i).words).flatMap Vector.toList

def columnBytes {m : Nat} (column : Fin m → Chunk) : List UInt8 :=
  (List.ofFn fun i => (column i).bytes).flatten

theorem foldedWords_length {m : Nat} (column : Fin m → Chunk) :
    (foldedWords column).length = 32 * m := by
  rw [foldedWords, flatMap_toList_length, List.length_ofFn]

variable {h count : Nat}

theorem le_mul_chunkCount (count : Nat) : count ≤ 32 * chunkCount count := by
  rw [Nat.mul_comm]
  exact le_ceilDiv_mul (by decide)

theorem mul_lt_of_lt_chunkCount {i : Nat} (h : i < chunkCount count) : 32 * i < count := by
  simp only [chunkCount, ceilDiv, chunkLength] at h
  omega

theorem decodeChunks_reads (m : Nat) :
    Reads h (decodeChunks m) fun folded bs => ∃ column : Fin m → Chunk,
      folded.1 = foldedWords column ∧ bs = columnBytes column := by
  induction m with
  | zero =>
    refine (Reads.pure _).congr fun folded bs => ?_
    constructor
    · intro hform
      obtain ⟨rfl, rfl⟩ := hform
      exact ⟨nofun, by simp [foldedWords], by simp [columnBytes]⟩
    · intro hform
      obtain ⟨column, hfolded, rfl⟩ := hform
      exact ⟨Subtype.ext (by simp [hfolded, foldedWords]), by simp [columnBytes]⟩
  | succ m ih =>
    refine (decodeChunk_reads.bind fun words => ih.map (f := fun folded =>
      (⟨words.toList ++ folded.1, by simp [folded.2]; omega⟩ :
        { words : List UInt32 // words.length = 32 * (m + 1) }))).congr fun folded bs => ?_
    constructor
    · intro hform
      obtain ⟨_, u, v, ⟨c, rfl, rfl⟩, ⟨more, ⟨column, hmore, rfl⟩, rfl⟩, rfl⟩ := hform
      refine ⟨Fin.cons c column, ?_, ?_⟩
      · simp [foldedWords, List.ofFn_succ, hmore]
      · simp [columnBytes, List.ofFn_succ]
    · intro hform
      obtain ⟨column, hfolded, rfl⟩ := hform
      refine ⟨_, _, _, ⟨column 0, rfl, rfl⟩, ⟨⟨_, foldedWords_length fun i => column i.succ⟩,
        ⟨_, rfl, rfl⟩, ?_⟩, ?_⟩
      · apply Subtype.ext
        rw [hfolded]
        simp [foldedWords, List.ofFn_succ]
      · simp [columnBytes, List.ofFn_succ]

theorem map_rotateDown_unfoldAll_iff (words folded : List UInt32) :
    words = (unfoldAll 0 folded).map Word.rotateDown ↔
      foldAll 0 (words.map Word.rotateUp) = folded := by
  constructor
  · intro hw
    rw [hw, List.map_map, show Word.rotateUp ∘ Word.rotateDown = id from
      funext Word.rotateUp_rotateDown, List.map_id, foldAll_unfoldAll]
  · intro hf
    rw [← hf, unfoldAll_foldAll, List.map_map, show Word.rotateDown ∘ Word.rotateUp = id from
      funext Word.rotateDown_rotateUp, List.map_id]

theorem decodeColumn_reads (count : Nat) :
    Reads h (decodeColumn count) fun words bs => ∃ column : Fin (chunkCount count) → Chunk,
      foldAll 0 (words.toList.map Word.rotateUp) = (foldedWords column).take count ∧
        bs = columnBytes column := by
  have hroom (folded : List UInt32) (hf : folded.length = 32 * chunkCount count) :
      count ≤ folded.length := hf ▸ le_mul_chunkCount count
  refine ((decodeChunks_reads (chunkCount count)).map (f := fun folded =>
    (⟨((unfoldAll 0 (folded.1.take count)).map Word.rotateDown).toArray,
      by simp [Nat.min_eq_left (hroom folded.1 folded.2)]⟩ : Vector UInt32 count))).congr
    fun words bs => ?_
  constructor
  · intro hform
    obtain ⟨folded, ⟨column, hfolded, rfl⟩, rfl⟩ := hform
    refine ⟨column, ?_, rfl⟩
    rw [← map_rotateDown_unfoldAll_iff, ← hfolded]
    rfl
  · intro hform
    obtain ⟨column, hwords, rfl⟩ := hform
    refine ⟨⟨foldedWords column, foldedWords_length column⟩, ⟨column, rfl, rfl⟩, ?_⟩
    exact Vector.toList_inj.1 ((map_rotateDown_unfoldAll_iff _ _).2 hwords)

theorem Chunk.bytes_append_inj {c d : Chunk} {u v : List UInt8}
    (heq : c.bytes ++ u = d.bytes ++ v) : c = d ∧ u = v := by
  -- The words alone do not settle the mask, since planes of zeros may be stored.
  obtain ⟨hwords, rfl⟩ := (decodeChunk_reads (h := 0)).append_inj ⟨c, rfl, rfl⟩ ⟨d, rfl, rfl⟩
    (Nat.zero_le _) (Nat.zero_le _) heq
  have hplanes : c.planes = d.planes := by
    rw [← transpose_transpose c.planes, ← transpose_transpose d.planes]
    exact congrArg transpose hwords
  have hbytes : c.bytes = d.bytes := List.append_cancel_right heq
  have hmask : Word.toBytes c.mask = Word.toBytes d.mask :=
    (List.append_inj hbytes (by rw [Word.toBytes_length, Word.toBytes_length])).1
  refine ⟨Chunk.ext_of_eq ?_ hplanes, rfl⟩
  rw [← Word.ofBytes_toBytes c.mask, hmask, Word.ofBytes_toBytes]

/-- If no code word begins another one, a concatenation can be taken apart in one way only. -/
theorem flatten_ofFn_append_inj {γ : Type} {code : γ → List UInt8}
    (hcode : ∀ {a b u v}, code a ++ u = code b ++ v → a = b ∧ u = v) {m : Nat} {f g : Fin m → γ}
    {u v : List UInt8} (heq : (List.ofFn fun i => code (f i)).flatten ++ u =
      (List.ofFn fun i => code (g i)).flatten ++ v) : f = g ∧ u = v := by
  induction m with
  | zero => exact ⟨funext nofun, by simpa using heq⟩
  | succ m ih =>
    simp only [List.ofFn_succ, List.flatten_cons, List.append_assoc] at heq
    obtain ⟨hzero, hrest⟩ := hcode heq
    obtain ⟨hsucc, rfl⟩ := ih (f := fun i => f i.succ) (g := fun i => g i.succ) hrest
    refine ⟨funext fun i => ?_, rfl⟩
    cases i using Fin.cases with
    | zero => exact hzero
    | succ i => exact congrFun hsucc i

/-- A stream of `count` records, cut into the chunks of its word columns. -/
abbrev Cut (size count : Nat) := Fin (size / 4) → Fin (chunkCount count) → Chunk

def Cut.bytes {size : Nat} (cut : Cut size count) : List UInt8 :=
  (List.ofFn fun j => columnBytes (cut j)).flatten

theorem Cut.bytes_append_inj {size : Nat} {cut cut' : Cut size count} {u v : List UInt8}
    (heq : cut.bytes ++ u = cut'.bytes ++ v) : cut = cut' ∧ u = v :=
  flatten_ofFn_append_inj (fun heq => flatten_ofFn_append_inj Chunk.bytes_append_inj heq) heq

def foldedColumn {size : Nat} (j : Fin (size / 4)) (records : List (Record size)) : List UInt32 :=
  foldAll 0 ((Record.wordColumn j records).map Word.rotateUp)

/-- The records that a stream decodes to. Entries behind the end of a column are not looked at. -/
def Cut.Stores {size : Nat} (cut : Cut size count) (records : List (Record size)) : Prop :=
  records.length = count ∧ ∀ j, foldedColumn j records = (foldedWords (cut j)).take count

variable {size : VertexSize}

def decodeColumns (size : VertexSize) (count : Nat) :
    Reading CursorError (List (Record size.val)) := do
  let columns ← Vector.ofFnM fun _ : Fin (size.val / 4) => decodeColumn count
  pure (Record.ofWordColumns size.four_dvd columns)

theorem decodeColumns_reads (size : VertexSize) (count : Nat) :
    Reads h (decodeColumns size count) fun records bs =>
      ∃ cut : Cut size.val count, cut.Stores records ∧ bs = cut.bytes := by
  have hcolumns := Reads.ofFnM (h := h) fun _ : Fin (size.val / 4) => decodeColumn_reads count
  refine (hcolumns.map (f := Record.ofWordColumns size.four_dvd)).congr fun records bs => ?_
  constructor
  · intro hform
    obtain ⟨columns, ⟨parts, hparts, rfl⟩, rfl⟩ := hform
    choose cut hwords hbytes using hparts
    refine ⟨cut, ⟨by simp [Record.ofWordColumns], fun j => ?_⟩, ?_⟩
    · rw [foldedColumn, Record.wordColumn_ofWordColumns]
      exact hwords j
    · rw [Cut.bytes, funext hbytes]
  · intro hform
    obtain ⟨cut, ⟨rfl, hwords⟩, rfl⟩ := hform
    refine ⟨_, ⟨fun j => columnBytes (cut j), fun j => ⟨cut j, ?_, rfl⟩, rfl⟩,
      (Record.ofWordColumns_wordColumn size.four_dvd records).symm⟩
    simpa [foldedColumn] using hwords j

section Read
variable {records : List (Record size.val)} {r r' : Reader}

theorem read_of_decodeColumns_ok (h : decodeColumns size count r = .ok records r') :
    read size count r =
      if r'.rest = [] then .ok records r' else .error (.trailingData 0 r'.remaining) r' := by
  obtain ⟨columns, r₁, hcolumns, hpure⟩ := bind_eq_ok_iff.1 h
  cases hpure
  rw [read, bind_of_ok (adaptExcept_of_ok hcolumns)]
  change (if ¬ r'.isEmpty = true then _ else _ : Decoding _) r' = _
  by_cases hrest : r'.rest = []
  · rw [if_pos hrest, if_neg (by simp [Reader.isEmpty, hrest])]
    rfl
  · rw [if_neg hrest, if_pos (by simp [Reader.isEmpty, hrest])]
    rfl

theorem read_of_decodeColumns_error {e : CursorError}
    (h : decodeColumns size count r = .error e r') :
    read size count r = .error (.ofCursor e) r' := by
  rw [decodeColumns] at h
  cases hcolumns : (Vector.ofFnM fun _ : Fin (size.val / 4) => decodeColumn count :
      Reading CursorError _) r with
  | ok columns r₁ =>
    rw [bind_of_ok hcolumns] at h
    cases h
  | error e₁ r₁ =>
    rw [bind_of_error hcolumns] at h
    cases h
    rw [read, bind_of_error (adaptExcept_of_error hcolumns)]

/-- A stream with something behind it is read up to where it ends. -/
theorem decodeColumns_append {cut : Cut size.val count} (h : cut.Stores records)
    (t : List UInt8) :
    ∃ r, decodeColumns size count (.ofBytes (cut.bytes ++ t)) = .ok records r ∧ r.rest = t := by
  obtain ⟨r, hmove, hrest⟩ := Reader.exists_moves (r := .ofBytes (cut.bytes ++ t)) rfl
  exact ⟨r, (decodeColumns_reads size count).complete ⟨cut, h, rfl⟩ hmove (Nat.zero_le _), hrest⟩

theorem read_eq_ok_iff {stream : List UInt8} :
    (∃ r, read size count (.ofBytes stream) = .ok records r) ↔
      ∃ cut : Cut size.val count, cut.Stores records ∧ stream = cut.bytes := by
  constructor
  · intro hread
    obtain ⟨r, hread⟩ := hread
    cases hrun : decodeColumns size count (.ofBytes stream) with
    | error e r' =>
      rw [read_of_decodeColumns_error hrun] at hread
      cases hread
    | ok found r' =>
      rw [read_of_decodeColumns_ok hrun] at hread
      split at hread
      · cases hread
        obtain ⟨_, ⟨cut, hstores, rfl⟩, hmove⟩ :=
          (decodeColumns_reads (h := 0) size count).sound hrun
        refine ⟨cut, hstores, ?_⟩
        have hrest := hmove.rest_eq
        rwa [‹r.rest = []›, List.append_nil] at hrest
      · cases hread
  · intro hcut
    obtain ⟨cut, hstores, rfl⟩ := hcut
    obtain ⟨r, hrun, hrest⟩ := decodeColumns_append hstores []
    rw [List.append_nil] at hrun
    exact ⟨r, by rw [read_of_decodeColumns_ok hrun, if_pos hrest]⟩

end Read

section Into
variable {destination stream : List UInt8}

theorem decode_of_stores {cut : Cut size.val count} {records : List (Record size.val)}
    (h : cut.Stores records) (hlim : count * size.val < Capacity.limit) :
    decode count size.val cut.bytes = .ok (Record.flatten records) := by
  obtain ⟨r, hread⟩ := read_eq_ok_iff.2 ⟨cut, h, rfl⟩
  rw [decode, VertexBuffer.decode_of_read_ok hlim hread, close, List.append_nil]

theorem decodeInto_of_stores {cut : Cut size.val count} {records : List (Record size.val)}
    (h : cut.Stores records) (hlim : count * size.val < Capacity.limit)
    (hle : count * size.val ≤ destination.length) :
    decodeInto destination count size.val cut.bytes =
      .ok (Record.flatten records ++ destination.drop (count * size.val)) := by
  obtain ⟨r, hread⟩ := read_eq_ok_iff.2 ⟨cut, h, rfl⟩
  exact VertexBuffer.decodeInto_of_read_ok hlim hle hread

theorem of_decodeInto_eq_ok {n : Nat} {bytes : List UInt8}
    (h : decodeInto destination count n stream = .ok bytes) :
    ∃ size : VertexSize, size.val = n ∧ count * n < Capacity.limit ∧
      count * n ≤ destination.length ∧
      ∃ (cut : Cut size.val count) (records : List (Record size.val)), cut.Stores records ∧
        stream = cut.bytes ∧ bytes = Record.flatten records ++ destination.drop (count * n) := by
  obtain ⟨size, rfl, hlim, hle, records, r, hread, rfl⟩ := VertexBuffer.of_decodeInto_eq_ok h
  obtain ⟨cut, hstores, hstream⟩ := read_eq_ok_iff.1 ⟨r, hread⟩
  exact ⟨size, rfl, hlim, hle, cut, records, hstores, hstream, rfl⟩

end Into
end VertexPack.PlaneStream
