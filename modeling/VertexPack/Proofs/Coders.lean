import VertexPack.Proofs.Keeping
import VertexPack.Proofs.Predictors
import VertexPack.Proofs.StreamForm

/-! A coder keeps the predictor of its next block beside its cursor, and every channel looks up its
byte there. It does what the predictor does that is handed on from block to block, and what it
keeps is replaced behind the last channel only. -/
namespace VertexPack

def Predictor.moveTo (last : List UInt8) (p : Predictor) : Predictor :=
  { p with record := Record.ofList p.size last }

theorem Predictor.getD_bytes (p : Predictor) (k : Fin p.size) :
    p.bytes.getD k 0 = p.record.get k := by
  rw [bytes, get_eq_getElem, List.getD_eq_getElem _ _ (by simp)]
  simp

theorem Predictor.moveTo_flatten (p : Predictor) {records : List (Record p.size)}
    (hne : records ≠ []) :
    p.moveTo ((Record.flatten records).drop ((Record.flatten records).length - p.size)) =
      p.advance records := by
  obtain ⟨-, hlast⟩ := Record.flatten_last p.record hne
  rw [moveTo, hlast, Record.ofList_toList, advance]

/-- Steps of a coder, which keeps a predictor. -/
abbrev Coding (κ : Type) := Keeping κ Predictor

namespace Coding
open Keeping
variable {κ σ α : Type}

def ofExcept : Except StreamError α → Coding κ α
  | .ok a => pure a
  | .error e => throw e

def start (k : Nat) : Coding κ UInt8 := look fun p => p.bytes.getD k 0

def encodeBlock (obs : Observer σ) (block : List UInt8) : Coding (Session σ) Unit := do
  let size ← look Predictor.size
  let n ← ofExcept (Block.count block.length size)
  (List.finRange size).forM fun k => do
    let first ← start k
    step (Channel.encode obs k first (Record.bytesColumn size n block k))
  change (Predictor.moveTo (block.drop (block.length - size)))

def decodeBlock (length : Nat) : Coding Reader (List UInt8) := do
  let size ← look Predictor.size
  let n ← ofExcept (Block.count length size)
  let columns ← Vector.ofFnM fun k : Fin size => do
    let first ← start k
    step (Channel.decode first n)
  let block := Record.flatten (Record.ofColumns columns)
  change (Predictor.moveTo (block.drop (block.length - size)))
  pure block

theorem simulates_start {p : Predictor} {k : Fin p.size} {f : UInt8 → Coding κ α}
    {m : EStateM StreamError κ α} (h : Simulates (· = p) (f (p.record.get k)) m) :
    Simulates (· = p) (start k >>= f) m :=
  (Simulates.look fun _ hb => hb ▸ p.getD_bytes k).bind_of_pure h

section Run
variable {p : Predictor} {obs : Observer σ} {block : List UInt8} {length n : Nat}
  {e : StreamError}

theorem encodeBlock_of_count_error (s : Session σ)
    (h : Block.count block.length p.size = .error e) :
    p.encodeBlock obs block s = .error e s ∧ encodeBlock obs block ⟨s, p⟩ = .error e ⟨s, p⟩ := by
  constructor
  · rw [Predictor.encodeBlock, h]
    rfl
  · change (ofExcept (Block.count block.length p.size) >>= fun n => _) _ = _
    rw [h]
    rfl

theorem encodeBlock_of_count_ok (obs : Observer σ) (s : Session σ)
    (h : Block.count block.length p.size = .ok n) :
    p.encodeBlock obs block s =
      (Block.encode obs p.record (Record.split p.size n block) >>= fun _ =>
        pure (p.advance (Record.split p.size n block))) s ∧
    encodeBlock obs block ⟨s, p⟩ =
      (step (Block.encode obs p.record (Record.split p.size n block)) >>= fun _ =>
        change (Predictor.moveTo (block.drop (block.length - p.size)))) ⟨s, p⟩ := by
  constructor
  · rw [Predictor.encodeBlock, h]
    rfl
  · have hloop : Simulates (· = p) ((List.finRange p.size).forM fun k => do
        let first ← start k
        step (Channel.encode obs k first (Record.bytesColumn p.size n block k)))
        (Block.encode obs p.record (Record.split p.size n block)) := by
      refine Simulates.forM _ fun k _ => simulates_start ?_
      rw [Record.column_split]
      exact Simulates.step _
    change (ofExcept (Block.count block.length p.size) >>= fun n => _) _ = _
    rw [h]
    exact bind_congr_run (hloop.run_eq s)

theorem decodeBlock_of_count_error (r : Reader) (h : Block.count length p.size = .error e) :
    p.decodeBlock length r = .error e r ∧ decodeBlock length ⟨r, p⟩ = .error e ⟨r, p⟩ := by
  constructor
  · rw [Predictor.decodeBlock, h]
    rfl
  · change (ofExcept (Block.count length p.size) >>= fun n => _) _ = _
    rw [h]
    rfl

theorem decodeBlock_of_count_ok (r : Reader) (h : Block.count length p.size = .ok n) :
    p.decodeBlock length r =
      (Block.decode p.record n >>= fun records =>
        pure (Record.flatten records, p.advance records)) r ∧
    decodeBlock length ⟨r, p⟩ =
      (step (Block.decode p.record n) >>= fun records => do
        change (Predictor.moveTo
          ((Record.flatten records).drop ((Record.flatten records).length - p.size)))
        pure (Record.flatten records)) ⟨r, p⟩ := by
  constructor
  · rw [Predictor.decodeBlock, h]
  · have hloop : Simulates (· = p) ((Vector.ofFnM fun k : Fin p.size => do
        let first ← start k
        step (Channel.decode first n)) >>= fun columns => pure (Record.ofColumns columns))
        (Block.decode p.record n) :=
      (Simulates.ofFnM fun k => simulates_start (Simulates.step _)).bind fun columns =>
        Simulates.pure _
    change (ofExcept (Block.count length p.size) >>= fun n => _) _ = _
    rw [h, ← bind_congr_run (hloop.run_eq r), bind_assoc]
    rfl

/-- When the coder fails, the predictor fails with the same error, and what the coder keeps has not
been replaced; when it succeeds, it keeps what the predictor hands on. -/
theorem encodeBlock_cases (obs : Observer σ) (block : List UInt8) (s : Session σ) (p : Predictor) :
    (∃ q s', p.encodeBlock obs block s = .ok q s' ∧
      encodeBlock obs block ⟨s, p⟩ = .ok () ⟨s', q⟩) ∨
    ∃ e s', p.encodeBlock obs block s = .error e s' ∧
      encodeBlock obs block ⟨s, p⟩ = .error e ⟨s', p⟩ := by
  cases hcount : Block.count block.length p.size with
  | error e => exact .inr ⟨e, s, encodeBlock_of_count_error s hcount⟩
  | ok n =>
    obtain ⟨hpredictor, hcoder⟩ := encodeBlock_of_count_ok obs s hcount
    rw [hpredictor, hcoder]
    obtain ⟨hpos, -, hlen⟩ := Block.of_count_eq_ok hcount
    have hlast := p.moveTo_flatten (Record.split_ne_nil block hpos)
    rw [Record.flatten_split_self hlen] at hlast
    cases hrun : Block.encode obs p.record (Record.split p.size n block) s with
    | error e s' => exact .inr ⟨e, s', bind_of_error hrun, bind_of_error (step_of_error p hrun)⟩
    | ok _ s' =>
      refine .inl ⟨_, s', bind_of_ok hrun, (bind_of_ok (step_of_ok p hrun)).trans ?_⟩
      rw [← hlast]
      rfl

theorem decodeBlock_cases (length : Nat) (r : Reader) (p : Predictor) :
    (∃ block q r', p.decodeBlock length r = .ok (block, q) r' ∧
      decodeBlock length ⟨r, p⟩ = .ok block ⟨r', q⟩) ∨
    ∃ e r', p.decodeBlock length r = .error e r' ∧
      decodeBlock length ⟨r, p⟩ = .error e ⟨r', p⟩ := by
  cases hcount : Block.count length p.size with
  | error e => exact .inr ⟨e, r, decodeBlock_of_count_error r hcount⟩
  | ok n =>
    obtain ⟨hpredictor, hcoder⟩ := decodeBlock_of_count_ok r hcount
    rw [hpredictor, hcoder]
    cases hrun : Block.decode p.record n r with
    | error e r' => exact .inr ⟨e, r', bind_of_error hrun, bind_of_error (step_of_error p hrun)⟩
    | ok records r' =>
      refine .inl ⟨_, _, r', bind_of_ok hrun, (bind_of_ok (step_of_ok p hrun)).trans ?_⟩
      obtain ⟨-, ⟨hlen, -⟩, -⟩ := (Block.decode_reads p.record n).sound hrun
      have hne : records ≠ [] := by
        rw [← List.length_pos_iff, hlen]
        exact (Block.of_count_eq_ok hcount).1
      rw [← p.moveTo_flatten hne]
      rfl

end Run
end Coding
end VertexPack
