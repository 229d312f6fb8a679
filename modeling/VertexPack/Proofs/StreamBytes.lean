import VertexPack.DeltaStream
import VertexPack.Proofs.ChannelBytes
import VertexPack.Proofs.Admission

/-! The bytes of a delta stream as a function of its job alone, and the exact room that
writing them takes. The headroom that is demanded before every group is inside the tail,
so a destination of the length of the stream is enough. -/
namespace VertexPack

def Block.bytes {size : Nat} (p : Record size) (records : List (Record size)) : List UInt8 :=
  (List.finRange size).flatMap fun k => Channel.columnBytes (p.get k) (Record.column k records)

namespace DeltaStream
variable {σ : Type} {size : Nat}

/-- The bytes of consecutive blocks; the first is predicted from `p`. -/
def blocksBytes : Record size → List (List (Record size)) → List UInt8
  | _, [] => []
  | p, b :: bs => Block.bytes p b ++ blocksBytes (b.getLastD p) bs

def tailBytes (first : List UInt8) : List UInt8 :=
  List.replicate (Layout.minTailSize - first.length) 0 ++ first

def firstRecord (records : List (Record size)) : Record size :=
  records.headD (Vector.replicate _ 0)

def bodyBytes (records : List (Record size)) : List UInt8 :=
  blocksBytes (firstRecord records) (chunks (Layout.blockLength size) records) ++
    tailBytes (firstRecord records).toList

def Job.bytes (job : Job) : List UInt8 := job.format.raw :: bodyBytes job.records

theorem tailBytes_length (first : List UInt8) :
    (tailBytes first).length = Layout.tailSize first.length := by
  rw [tailBytes, List.length_append, List.length_replicate, Layout.tailSize]
  omega

theorem Block.encode_appends (obs : Observer σ) (p : Record size) (records : List (Record size)) :
    ∃ r, Appends r (Block.bytes p records) (Block.encode obs p records) :=
  Appends.forM (fun k : Fin size =>
    Channel.encode_appends obs k (p.get k) (Record.column k records)) _

theorem encodeBlocks_appends (obs : Observer σ) (i : Nat) (p : Record size)
    (blocks : List (List (Record size))) :
    ∃ r, Appends r (blocksBytes p blocks) (encodeBlocks obs i p blocks) := by
  induction blocks generalizing i p with
  | nil => exact ⟨0, Appends.pure⟩
  | cons b bs ih =>
    obtain ⟨r, hr⟩ := Block.encode_appends obs p b
    obtain ⟨r', hr'⟩ := ih (i + 1) (b.getLastD p)
    have hstep := (hr.noting (.blockFailed i)).bind hr'
    refine ⟨_, Appends.look hstep.length_le hstep.room_le (fun s => ⟨_, rfl⟩) fun start => ?_⟩
    exact (Appends.note _).quiet_bind hstep

theorem formatByte_write_of_le (format : FormatByte) {w : Writer}
    (h : [format.raw].length ≤ w.remaining) : format.write w = .ok () (w.push [format.raw]) :=
  adaptExcept_of_ok (Writer.append_of_le h)

theorem formatByte_write_of_lt (format : FormatByte) {w : Writer}
    (h : w.remaining < [format.raw].length) :
    ∃ e, format.write w = .error e w ∧
      StreamError.ofFrame e = .outputTooSmall [format.raw].length w.remaining :=
  ⟨_, adaptExcept_of_error (Writer.append_of_lt h), rfl⟩

theorem formatByte_appends (format : FormatByte) :
    Appends 1 [format.raw] (Encoding.writing .ofFrame format.write : Encoding σ Unit) :=
  Appends.writing (fun _ => formatByte_write_of_le format) fun _ => formatByte_write_of_lt format

theorem writeTail_of_le (first : List UInt8) {w : Writer}
    (h : (tailBytes first).length ≤ w.remaining) :
    Layout.writeTail first w = .ok () (w.push (tailBytes first)) := by
  rw [tailBytes_length] at h
  have hzeros : Layout.minTailSize - first.length + first.length ≤ w.remaining := by
    unfold Layout.tailSize at h
    omega
  have hfirst : first.length ≤
      (w.push (List.replicate (Layout.minTailSize - first.length) 0)).remaining := by
    rw [Writer.remaining_push, List.length_replicate]
    omega
  have hrun := Writer.append_of_le hfirst
  rw [Writer.push_push] at hrun
  have hpad := Writer.appendZeros_of_le (w := w) (n := Layout.minTailSize - first.length)
    (by omega)
  exact adaptExcept_of_ok ((bind_of_ok (Writer.ensure_of_le h)).trans
    ((bind_of_ok hpad).trans hrun))

theorem writeTail_of_lt (first : List UInt8) {w : Writer}
    (h : w.remaining < (tailBytes first).length) :
    ∃ e, Layout.writeTail first w = .error e w ∧
      StreamError.ofFrame e = .outputTooSmall (tailBytes first).length w.remaining := by
  rw [tailBytes_length] at h ⊢
  exact ⟨_, adaptExcept_of_error (bind_of_error (Writer.ensure_of_lt h)), rfl⟩

theorem tail_appends (first : List UInt8) :
    Appends (tailBytes first).length (tailBytes first)
      (Encoding.writing .ofFrame (Layout.writeTail first) : Encoding σ Unit) :=
  Appends.writing (fun _ => writeTail_of_le first) fun _ => writeTail_of_lt first

namespace Job

def write (job : Job) (obs : Observer σ) : Encoding σ Unit := do
  Encoding.write (Writer.ensure (1 + job.size.val))
  Encoding.writing .ofFrame job.format.write
  encodeBlocks obs 0 job.first job.blocks
  Encoding.writing .ofFrame (Layout.writeTail job.first.toList)

theorem size_le_bytes (job : Job) : 1 + job.size.val ≤ job.bytes.length := by
  have htail := tailBytes_length (firstRecord job.records).toList
  rw [Vector.length_toList] at htail
  have hsize := Layout.size_le_tailSize job.size.val
  rw [bytes, List.length_cons, bodyBytes, List.length_append]
  omega

theorem write_appends (job : Job) (obs : Observer σ) :
    Appends job.bytes.length job.bytes (job.write obs) := by
  obtain ⟨r, hblocks⟩ := encodeBlocks_appends obs 0 job.first job.blocks
  have hbody := hblocks.bind (tail_appends job.first.toList)
  have heq : blocksBytes job.first job.blocks ++ tailBytes job.first.toList =
      bodyBytes job.records := rfl
  -- The blocks alone may demand more than they write, but never more than the tail adds.
  have hroom : max r ((blocksBytes job.first job.blocks).length +
      (tailBytes job.first.toList).length) = (bodyBytes job.records).length := by
    have hr := hblocks.room_le
    have htail := Layout.headroom_le_tailSize job.first.toList.length
    rw [← tailBytes_length] at htail
    rw [← heq, List.length_append]
    omega
  rw [hroom, heq] at hbody
  have hstream := (formatByte_appends job.format).bind hbody
  have hlen : max 1 ([job.format.raw].length + (bodyBytes job.records).length) =
      job.bytes.length := by
    rw [List.length_singleton, bytes, List.length_cons]
    omega
  rw [hlen] at hstream
  exact hstream.ensure_bind job.size_le_bytes

theorem encode_eq (job : Job) (obs : Observer σ) :
    job.encode obs = (do
      job.write obs
      let total ← Encoding.position
      Encoding.report obs (.stream job.records.length total)
      Encoding.note (.encoded job.records.length job.size.val total job.format.version)
      pure total) := by
  simp only [encode, write, bind_assoc]

theorem encode_emits (job : Job) (obs : Observer σ) : Emits job.bytes (job.encode obs) := by
  have hclose (total : Nat) : Appends 0 [] (do
      Encoding.report obs (.stream job.records.length total)
      Encoding.note (.encoded job.records.length job.size.val total job.format.version)) :=
    (Appends.report obs _).quiet_bind (Appends.note _)
  have h := (job.write_appends obs).emits hclose
  simp only [bind_assoc] at h
  rwa [encode_eq]

end Job
end DeltaStream
end VertexPack
