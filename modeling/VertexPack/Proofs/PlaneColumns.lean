import VertexPack.Proofs.PlaneCanonical

/-! Word columns on their own. A plane stream is the plane streams of its word columns one after
the other, each of them the stream of records of a single word. -/
namespace VertexPack

namespace Record
variable {size count : Nat} {source : List UInt8}

def wordRecord (j : Fin (size / 4)) (r : Record size) : Record 4 :=
  Vector.ofFn fun b => r.get ⟨4 * j + b, by omega⟩

theorem get_wordRecord (j : Fin (size / 4)) (r : Record size) (b : Fin 4) :
    (wordRecord j r).get b = r.get ⟨4 * j + b, by omega⟩ := by
  rw [wordRecord, get_ofFn]

theorem word_wordRecord (j : Fin (size / 4)) (r : Record size) (i : Fin (4 / 4)) :
    (wordRecord j r).word i = r.word j := by
  -- Four bytes have one word offset only.
  have hi : 4 * i.val = 0 := by omega
  apply Word.eq_of_byte
  intro b hb
  rw [byte_word _ _ hb, byte_word _ _ hb, get_wordRecord]
  simp only [hi, Nat.zero_add]

theorem mul_four_le (count : Nat) (j : Fin (size / 4)) : count * 4 ≤ count * size := by
  have hsize : 4 ≤ size := by
    have hj := j.isLt
    omega
  exact Nat.mul_le_mul_left count hsize

def wordBytes (count size : Nat) (source : List UInt8) (j : Nat) : List UInt8 :=
  (List.range count).flatMap fun i => (source.drop (i * size + 4 * j)).take 4

theorem toList_wordRecord_split {i : Nat} (hi : i < (split size count source).length)
    (h : count * size ≤ source.length) (j : Fin (size / 4)) :
    (wordRecord j (split size count source)[i]).toList =
      (source.drop (i * size + 4 * j)).take 4 := by
  have hnext := Nat.mul_le_mul_right size (Nat.succ_le_of_lt (split_length ▸ hi))
  rw [Nat.succ_mul] at hnext
  apply List.ext_getElem
  · rw [Vector.length_toList, List.length_take, List.length_drop]
    omega
  · intro b hb hb'
    rw [Vector.length_toList] at hb
    have hbyte := get_wordRecord j (split size count source)[i] ⟨b, hb⟩
    rw [get_split, byteAt, List.getD_eq_getElem _ _ (by omega)] at hbyte
    rw [Vector.getElem_toList, List.getElem_take, List.getElem_drop]
    simpa only [get_eq_getElem, Nat.add_assoc] using hbyte

theorem wordBytes_eq_flatten (h : count * size ≤ source.length) (j : Fin (size / 4)) :
    wordBytes count size source j = flatten ((split size count source).map (wordRecord j)) := by
  rw [wordBytes, flatten, List.flatMap_def, List.flatMap_def, List.map_map]
  congr 1
  apply List.ext_getElem
  · simp
  · intro i hi hi'
    simp only [List.getElem_map, List.getElem_range, Function.comp_apply]
    rw [toList_wordRecord_split _ h]

theorem wordBytes_length (h : count * size ≤ source.length) (j : Fin (size / 4)) :
    (wordBytes count size source j).length = count * 4 := by
  rw [wordBytes_eq_flatten h, flatten_length, List.length_map, split_length]

theorem split_wordBytes (h : count * size ≤ source.length) (j : Fin (size / 4)) :
    split 4 count (wordBytes count size source j) =
      (split size count source).map (wordRecord j) := by
  rw [wordBytes_eq_flatten h, split_flatten (by rw [List.length_map, split_length])]

theorem wordBytes_flatten_append {records : List (Record size)} (h : records.length = count)
    (rest : List UInt8) (j : Fin (size / 4)) :
    wordBytes count size (flatten records ++ rest) j =
      flatten (records.map (wordRecord j)) := by
  have hlen : (flatten records).length = count * size := by rw [flatten_length, h]
  rw [wordBytes_eq_flatten (by rw [List.length_append, hlen]; omega), ← split_take,
    List.take_left' hlen, split_flatten h]

end Record

namespace PlaneStream
open Plane Record

section Cut
variable {size count : Nat} {cut : Cut size count} {records : List (Record size)}

theorem foldedColumn_map {size' : Nat} {f : Record size → Record size'} {i : Fin (size' / 4)}
    {j : Fin (size / 4)} (h : ∀ r, (f r).word i = r.word j) (records : List (Record size)) :
    foldedColumn i (records.map f) = foldedColumn j records := by
  have hwords : wordColumn i (records.map f) = wordColumn j records := by
    rw [wordColumn, wordColumn, List.map_map]
    exact List.map_congr_left fun r _ => h r
  rw [foldedColumn, foldedColumn, hwords]

/-- The chunks of a column depend on its words alone. -/
theorem Cut.ofRecords_map {size' : Nat} {f : Record size → Record size'} {i : Fin (size' / 4)}
    {j : Fin (size / 4)} (h : ∀ r, (f r).word i = r.word j) (records : List (Record size)) :
    Cut.ofRecords count (records.map f) i = Cut.ofRecords count records j := by
  rw [Cut.ofRecords, Cut.ofRecords, foldedColumn_map h]

theorem Cut.Stores.column (h : cut.Stores records) (j : Fin (size / 4)) :
    Cut.Stores (fun _ : Fin (4 / 4) => cut j) (records.map (wordRecord j)) :=
  ⟨(List.length_map _).trans h.1, fun i =>
    (foldedColumn_map (fun r => word_wordRecord j r i) records).trans (h.2 j)⟩

theorem Cut.bytes_column (column : Fin (chunkCount count) → Chunk) :
    Cut.bytes (fun _ : Fin (4 / 4) => column) = columnBytes column := by
  simp [Cut.bytes]

theorem le_foldedWords_length (column : Fin (chunkCount count) → Chunk) :
    count ≤ (foldedWords column).length := by
  rw [foldedWords_length]
  exact le_mul_chunkCount count

theorem Cut.stores_iff_wordColumn :
    cut.Stores records ↔ records.length = count ∧ ∀ j, wordColumn j records =
      (unfoldAll 0 ((foldedWords (cut j)).take count)).map Word.rotateDown := by
  refine and_congr_right fun _ => forall_congr' fun j => ?_
  exact (map_rotateDown_unfoldAll_iff _ _).symm

theorem Cut.exists_stores (hdvd : 4 ∣ size) (cut : Cut size count) :
    ∃ records, cut.Stores records := by
  refine ⟨ofWordColumns hdvd (Vector.ofFn fun j => (⟨((unfoldAll 0
    ((foldedWords (cut j)).take count)).map Word.rotateDown).toArray, ?_⟩ :
      Vector UInt32 count)), Cut.stores_iff_wordColumn.2 ⟨?_, fun j => ?_⟩⟩
  · simp [le_foldedWords_length]
  · simp [ofWordColumns]
  · rw [wordColumn_ofWordColumns, get_ofFn]
    rfl

theorem Cut.Stores.unique (hdvd : 4 ∣ size) {records' : List (Record size)}
    (h : cut.Stores records) (h' : cut.Stores records') : records = records' := by
  rw [Cut.stores_iff_wordColumn] at h h'
  exact eq_of_wordColumn hdvd (h.1.trans h'.1.symm) fun j => (h.2 j).trans (h'.2 j).symm

end Cut

section Encode
variable {count size : Nat} {source bytes : List UInt8}

/-- The stream of some records: what a destination with enough room takes, whatever it held before,
and what one with less room is refused. -/
structure IsStream (count size : Nat) (source bytes : List UInt8) : Prop where
  fits : ∀ {σ : Type} (observed : σ) (destination : List UInt8),
    bytes.length ≤ destination.length → ∃ s,
      encode count size source (.start destination observed) = .ok bytes.length s ∧
        s.writer.destination = bytes ++ destination.drop bytes.length
  full : ∀ {σ : Type} (observed : σ) (destination : List UInt8),
    destination.length < bytes.length → ∃ needed available s,
      encode count size source (.start destination observed) =
        .error (.outputTooSmall needed available) s ∧ available < needed

theorem isStream_streamBytes (h : Admissible count size source) :
    IsStream count size source (streamBytes count size source) where
  fits observed _ hle := (encode_emits h).start_of_le observed hle
  full observed _ hlt := (encode_emits h).start_of_lt observed hlt

theorem streamBytes_wordBytes (h : count * size ≤ source.length) (j : Fin (size / 4)) :
    streamBytes count 4 (wordBytes count size source j) =
      columnBytes (Cut.ofRecords count (split size count source) j) := by
  have hcolumn : Cut.ofRecords count ((split size count source).map (wordRecord j)) =
      fun _ => Cut.ofRecords count (split size count source) j :=
    funext fun i => Cut.ofRecords_map (fun r => word_wordRecord j r i) _
  rw [streamBytes, split_wordBytes h, hcolumn, Cut.bytes_column]

theorem streamBytes_eq_flatten (h : count * size ≤ source.length) :
    streamBytes count size source = (List.ofFn fun j : Fin (size / 4) =>
      streamBytes count 4 (wordBytes count size source j)).flatten := by
  rw [streamBytes, Cut.bytes]
  simp only [streamBytes_wordBytes h]

theorem Admissible.wordBytes (h : Admissible count size source) (j : Fin (size / 4)) :
    Admissible count 4 (Record.wordBytes count size source j) where
  validSize := by decide
  lt_limit := Nat.lt_of_le_of_lt (mul_four_le count j) h.lt_limit
  le_length := Nat.le_of_eq (wordBytes_length h.le_length j).symm

end Encode

section Decode
variable {count : Nat} {out stream bytes : List UInt8}

theorem of_decodeInto_column (h : decodeInto out count 4 stream = .ok bytes) :
    ∃ (column : Fin (chunkCount count) → Chunk) (records : List (Record 4)),
      Cut.Stores (fun _ : Fin (4 / 4) => column) records ∧ stream = columnBytes column ∧
        bytes.take (count * 4) = flatten records := by
  obtain ⟨⟨four, _, _, _⟩, rfl, _, _, cut, records, hstores, rfl, rfl⟩ := of_decodeInto_eq_ok h
  change Cut 4 count at cut
  change List (Record 4) at records
  have hcut : cut = fun _ => cut ⟨0, by decide⟩ := by
    funext j
    congr 1
    omega
  rw [hcut] at hstores ⊢
  refine ⟨_, records, hstores, Cut.bytes_column _, List.take_left' ?_⟩
  rw [flatten_length, hstores.1]

theorem decodeInto_column {column : Fin (chunkCount count) → Chunk} {records : List (Record 4)}
    (h : Cut.Stores (fun _ : Fin (4 / 4) => column) records)
    (hlim : count * 4 < Capacity.limit) (hle : count * 4 ≤ out.length) :
    decodeInto out count 4 (columnBytes column) =
      .ok (flatten records ++ out.drop (count * 4)) := by
  rw [← Cut.bytes_column]
  exact @decodeInto_of_stores _ ⟨4, by decide, by decide, by decide⟩ _ _ _ h hlim hle

theorem decodeInto_flatten {size : VertexSize} (hlim : count * size.val < Capacity.limit)
    (hle : count * size.val ≤ out.length) {streams outs found : Fin (size.val / 4) → List UInt8}
    (h : ∀ j, decodeInto (outs j) count 4 (streams j) = .ok (found j)) :
    ∃ bytes, decodeInto out count size.val (List.ofFn streams).flatten = .ok bytes ∧
      bytes.length = out.length ∧ bytes.drop (count * size.val) = out.drop (count * size.val) ∧
      ∀ j : Fin (size.val / 4), wordBytes count size.val bytes j = (found j).take (count * 4) := by
  choose column words hwords hstream hfound using fun j => of_decodeInto_column (h j)
  -- Any columns of chunks make up a cut, and the words that it stores in one of them are settled.
  obtain ⟨records, hstores⟩ := Cut.exists_stores size.four_dvd column
  have hbytes : (List.ofFn streams).flatten = Cut.bytes column := by
    rw [funext hstream, Cut.bytes]
  have hlen : (flatten records).length = count * size.val := by
    rw [flatten_length, hstores.1]
  refine ⟨_, hbytes ▸ decodeInto_of_stores hstores hlim hle, ?_, List.drop_left' hlen, fun j => ?_⟩
  · rw [List.length_append, List.length_drop, hlen]
    omega
  · rw [wordBytes_flatten_append hstores.1, hfound j,
      (hstores.column j).unique (by decide) (hwords j)]

theorem exists_streams {size : Nat} (h : decodeInto out count size stream = .ok bytes) :
    ∃ streams : Fin (size / 4) → List UInt8, (List.ofFn streams).flatten = stream ∧
      (∀ (j : Fin (size / 4)) (out' : List UInt8), count * 4 ≤ out'.length →
        decodeInto out' count 4 (streams j) =
          .ok (wordBytes count size bytes j ++ out'.drop (count * 4))) ∧
      ∀ streams' : Fin (size / 4) → List UInt8, (List.ofFn streams').flatten = stream →
        (∀ j, ∃ out' found, decodeInto out' count 4 (streams' j) = .ok found) →
        streams' = streams := by
  obtain ⟨size, rfl, hlim, hle, cut, records, hstores, rfl, rfl⟩ := of_decodeInto_eq_ok h
  refine ⟨fun j => columnBytes (cut j), rfl, fun j out' hout' => ?_,
    fun streams' hflat haccept => ?_⟩
  · rw [wordBytes_flatten_append hstores.1]
    exact decodeInto_column (hstores.column j) (Nat.lt_of_le_of_lt (mul_four_le count j) hlim) hout'
  · -- Other such streams are columns of chunks too, and no two cuts have the same bytes.
    choose out' found haccept using haccept
    choose column words _ hstream _ using fun j => of_decodeInto_column (haccept j)
    rw [funext hstream] at hflat ⊢
    rw [show column = cut from Cut.bytes_inj.1 hflat]

end Decode

end PlaneStream
end VertexPack
