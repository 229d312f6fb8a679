import VertexPack.Predictor
import VertexPack.Proofs.StreamBytes
import VertexPack.Proofs.Records
import VertexPack.Proofs.Steps

/-! Blocks written one by one, each with the predictor that the one before it left. They are the
blocks of a stream, and the predictor left at the end is the last of their records. -/
namespace VertexPack

theorem Block.count_mul {n size : Nat} (hsize : 0 < size) (hpos : 0 < n)
    (hmax : n ≤ Layout.maxBlockLength) : count (n * size) size = .ok n := by
  have hn : ¬ (n = 0 ∨ n > Layout.maxBlockLength) := by omega
  simp only [count, Nat.mul_div_cancel _ hsize, Nat.mul_mod_left, ne_eq, not_true_eq_false,
    if_false, if_neg hn]

theorem Block.of_count_eq_ok {length size n : Nat} (h : count length size = .ok n) :
    0 < n ∧ n ≤ Layout.maxBlockLength ∧ length = n * size := by
  rw [count] at h
  split at h
  · cases h
  · split at h
    · cases h
    · rename_i hcount hwhole
      cases h
      rw [not_or, Nat.not_lt] at hcount
      exact ⟨Nat.pos_of_ne_zero hcount.1, hcount.2,
        (Nat.div_mul_cancel (Nat.dvd_of_mod_eq_zero (not_not.1 hwhole))).symm⟩

theorem Appends.of_bind_pure_eq_ok {σ α : Type} {r : Nat} {bytes : List UInt8}
    {step : Encoding σ Unit} {a b : α} {s s' : Session σ} (h : Appends r bytes step)
    (hrun : (step >>= fun _ => Pure.pure a) s = .ok b s') :
    b = a ∧ s'.writer = s.writer.push bytes := by
  obtain ⟨_, s₁, hstep, hpure⟩ := bind_eq_ok_iff.1 hrun
  cases hpure
  exact ⟨rfl, h.writer_eq_push hstep⟩

namespace Block
variable {σ : Type} {size : Nat}

def encodeAll (obs : Observer σ) : Record size → List (List (Record size)) → Encoding σ Unit
  | _, [] => pure ()
  | p, b :: bs => do
    encode obs p b
    encodeAll obs (b.getLastD p) bs

theorem encodeAll_appends (obs : Observer σ) (p : Record size)
    (blocks : List (List (Record size))) :
    ∃ r, Appends r (DeltaStream.blocksBytes p blocks) (encodeAll obs p blocks) := by
  induction blocks generalizing p with
  | nil => exact ⟨0, Appends.pure⟩
  | cons b bs ih =>
    obtain ⟨r, hblock⟩ := DeltaStream.Block.encode_appends obs p b
    obtain ⟨r', hrest⟩ := ih (b.getLastD p)
    exact ⟨_, hblock.bind hrest⟩

end Block

namespace Predictor
variable {σ : Type}

theorem ofBytes_of_length {size : VertexSize} {bytes : List UInt8} (h : bytes.length = size.val) :
    ofBytes bytes = .ok ⟨size.val, Record.ofList size.val bytes, size.pos, size.le_max⟩ := by
  obtain ⟨n, hpos, hmax, _⟩ := size
  obtain rfl : bytes.length = n := h
  rw [ofBytes, dif_pos ⟨hpos, hmax⟩]
  congr 2
  apply Vector.ext
  intro k hk
  simp [Record.ofList]

theorem ofBytes_toList {size : VertexSize} (r : Record size.val) :
    ofBytes r.toList = .ok ⟨size.val, r, size.pos, size.le_max⟩ := by
  rw [ofBytes_of_length r.length_toList, Record.ofList_toList]

def encodeBlocks (obs : Observer σ) (p : Predictor) : List (List UInt8) → Encoding σ Predictor
  | [] => pure p
  | b :: bs => do
    let q ← p.encodeBlock obs b
    q.encodeBlocks obs bs

theorem encodeBlock_flatten (obs : Observer σ) (p : Predictor) {records : List (Record p.size)}
    (hne : records ≠ []) (hmax : records.length ≤ Layout.maxBlockLength) :
    p.encodeBlock obs (Record.flatten records) =
      Block.encode obs p.record records >>= fun _ => pure (p.advance records) := by
  have hcount := Block.count_mul p.size_pos (List.length_pos_iff.2 hne) hmax
  rw [encodeBlock, Record.flatten_length, hcount]
  change Block.encode obs p.record (Record.split p.size records.length (Record.flatten records)) >>=
    _ = _
  rw [Record.split_flatten rfl]

/-- Blocks that are written one by one are consecutive blocks; what is left is the predictor of what
follows them. -/
theorem encodeBlocks_flatten {size : Nat} (obs : Observer σ) (last : Record size) (hpos : 0 < size)
    (hle : size ≤ 256) {blocks : List (List (Record size))}
    (h : ∀ b ∈ blocks, b ≠ [] ∧ b.length ≤ Layout.maxBlockLength) :
    encodeBlocks obs ⟨size, last, hpos, hle⟩ (blocks.map Record.flatten) =
      Block.encodeAll obs last blocks >>= fun _ =>
        pure ⟨size, blocks.flatten.getLastD last, hpos, hle⟩ := by
  induction blocks generalizing last with
  | nil => rfl
  | cons b bs ih =>
    obtain ⟨hb, hbs⟩ := List.forall_mem_cons.1 h
    have hfirst := encodeBlock_flatten obs ⟨size, last, hpos, hle⟩ hb.1 hb.2
    rw [List.map_cons, encodeBlocks, hfirst, Block.encodeAll, bind_assoc, bind_assoc,
      List.flatten_cons, getLastD_append, ← ih (b.getLastD last) hbs]
    rfl

theorem encodeBlocks_appends {size : Nat} (obs : Observer σ) (last : Record size) (hpos : 0 < size)
    (hle : size ≤ 256) {blocks : List (List (Record size))}
    (h : ∀ b ∈ blocks, b ≠ [] ∧ b.length ≤ Layout.maxBlockLength) :
    ∃ r step, Appends r (DeltaStream.blocksBytes last blocks) step ∧
      encodeBlocks obs ⟨size, last, hpos, hle⟩ (blocks.map Record.flatten) =
        step >>= fun _ => pure ⟨size, blocks.flatten.getLastD last, hpos, hle⟩ := by
  obtain ⟨r, hstep⟩ := Block.encodeAll_appends obs last blocks
  exact ⟨r, _, hstep, encodeBlocks_flatten obs last hpos hle h⟩

end Predictor
end VertexPack
