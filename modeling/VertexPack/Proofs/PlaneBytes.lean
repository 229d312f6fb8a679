import VertexPack.Proofs.PlaneForm
import VertexPack.Proofs.Records
import Mathlib.Data.List.FinRange

/-! What an encoder of plane streams writes: the chunks of the folded word columns, where no
plane of zeros is stored. -/
namespace VertexPack.PlaneStream
open Plane

def Chunk.ofWords (words : List UInt32) : Chunk := .ofPlanes (transpose (ofList words))

def cutColumn (m : Nat) (folded : List UInt32) : Fin m → Chunk := fun i =>
  .ofWords ((folded.drop (chunkLength * i)).take chunkLength)

def Cut.ofRecords {size : Nat} (count : Nat) (records : List (Record size)) : Cut size count :=
  fun j => cutColumn (chunkCount count) (foldedColumn j records)

def streamBytes (count size : Nat) (source : List UInt8) : List UInt8 :=
  (Cut.ofRecords count (Record.split size count source)).bytes

variable {σ : Type}

theorem columnBytes_cutColumn (m : Nat) (folded : List UInt32) :
    columnBytes (cutColumn m folded) =
      (pieces chunkLength m folded).flatMap fun words => (Chunk.ofWords words).bytes := by
  induction m generalizing folded with
  | zero => simp [columnBytes, pieces]
  | succ m ih =>
    have hrest : (fun i : Fin m => cutColumn (m + 1) folded i.succ) =
        cutColumn m (folded.drop chunkLength) := by
      funext i
      simp [cutColumn, List.drop_drop, Nat.mul_succ, Nat.add_comm]
    rw [pieces, List.flatMap_cons, ← ih, ← hrest]
    simp [columnBytes, List.ofFn_succ, cutColumn]

theorem encodeColumn_writes {words : List UInt32} {count : Nat} (hlen : words.length = count) :
    Writes (columnBytes (cutColumn (chunkCount count) (foldAll 0 (words.map Word.rotateUp))))
      (encodeColumn words) := by
  have hchunks : chunks chunkLength (foldAll 0 (words.map Word.rotateUp)) =
      pieces chunkLength (chunkCount count) (foldAll 0 (words.map Word.rotateUp)) := by
    rw [chunks, foldAll_length, List.length_map, hlen, chunkCount]
  rw [columnBytes_cutColumn, encodeColumn, hchunks]
  exact Writes.forM encodeChunk_writes _

namespace Job

def bytes (job : Job) : List UInt8 := (Cut.ofRecords job.records.length job.records).bytes

theorem write_appends (job : Job) :
    Appends job.bytes.length job.bytes (Encoding.write <|
      (List.finRange (job.size.val / 4)).forM fun j =>
        encodeColumn (job.records.map (·.word j)) : Encoding σ Unit) := by
  apply Writes.appends
  have hcolumns := Writes.forM (fun j : Fin (job.size.val / 4) =>
    encodeColumn_writes (Record.wordColumn_length j job.records)) (List.finRange _)
  rw [bytes, Cut.bytes, List.ofFn_eq_map, ← List.flatMap_def]
  exact hcolumns

theorem encode_emits (job : Job) : Emits job.bytes (job.encode : Encoding σ Nat) :=
  job.write_appends.emits fun _ => Appends.note _

end Job

structure Admissible (count size : Nat) (source : List UInt8) : Prop where
  validSize : ValidSize size
  lt_limit : count * size < Capacity.limit
  le_length : count * size ≤ source.length

section Outcome
variable {count size : Nat} {source destination : List UInt8}

theorem prepare_of_admissible (h : Admissible count size source) :
    ∃ job, Job.prepare count size source = .ok job ∧ job.bytes = streamBytes count size source := by
  obtain ⟨size, rfl⟩ := h.validSize.exists_size
  refine ⟨⟨size, Record.split size.val count source⟩, ?_, ?_⟩
  · rw [Job.prepare, VertexBuffer.size_val]
    change (VertexBuffer.records size count source >>= fun _ => _) = _
    rw [VertexBuffer.records_of_le h.lt_limit h.le_length]
    rfl
  · rw [Job.bytes, Record.split_length, streamBytes]

theorem admissible_of_prepare_eq_ok {job : Job} (h : Job.prepare count size source = .ok job) :
    Admissible count size source := by
  by_cases hsize : ValidSize size
  · obtain ⟨size, rfl⟩ := hsize.exists_size
    by_cases hshort : source.length < count * size.val ∨ Capacity.limit ≤ count * size.val
    · obtain ⟨needed, available, herror⟩ := VertexBuffer.records_of_short hshort
      rw [Job.prepare, VertexBuffer.size_val] at h
      change (VertexBuffer.records size count source >>= fun _ => _) = _ at h
      rw [herror] at h
      cases h
    · exact ⟨size.valid, by omega, by omega⟩
  · rw [Job.prepare, VertexBuffer.size_of_not_valid hsize] at h
    cases h

theorem encode_emits (h : Admissible count size source) :
    Emits (streamBytes count size source) (encode count size source : Encoding σ Nat) := by
  obtain ⟨job, hjob, hbytes⟩ := prepare_of_admissible h
  rw [← hbytes, encode, hjob]
  exact job.encode_emits

theorem admissible_of_encode_eq_ok {len : Nat} {s s' : Session σ}
    (h : encode count size source s = .ok len s') : Admissible count size source := by
  cases hjob : Job.prepare count size source with
  | error e =>
    rw [encode, hjob] at h
    cases h
  | ok job => exact admissible_of_prepare_eq_ok hjob

theorem of_encode_eq_ok {len : Nat} {s : Session σ} {observed : σ}
    (h : encode count size source (.start destination observed) = .ok len s) :
    Admissible count size source ∧ len = (streamBytes count size source).length ∧
      len ≤ destination.length ∧
      s.writer.destination = streamBytes count size source ++ destination.drop len :=
  have hadmissible := admissible_of_encode_eq_ok h
  ⟨hadmissible, (encode_emits hadmissible).of_start_eq_ok observed h⟩

theorem take_of_encode_eq_ok {len : Nat} {s : Session σ} {observed : σ}
    (h : encode count size source (.start destination observed) = .ok len s) :
    s.writer.destination.take len = streamBytes count size source :=
  (encode_emits (admissible_of_encode_eq_ok h)).take_of_start_eq_ok observed h

end Outcome
end VertexPack.PlaneStream
