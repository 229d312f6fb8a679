import VertexPack.DeltaStream
import VertexPack.PlaneStream
import VertexPack.Proofs.Run

/-! Reading blocks and reading word columns fail for one reason only: the bytes run out. -/
namespace VertexPack
variable {ε ε' α β : Type}

/-- Every error of the step satisfies `P`. -/
def FailsOnly (P : ε → Prop) (m : Reading ε α) : Prop := ∀ r e r', m r = .error e r' → P e

def CursorError.IsShort (e : CursorError) : Prop :=
  ∃ requested available, e = .unexpectedEnd requested available ∧ available < requested

def CursorError.IsShortOf (n : Nat) (e : CursorError) : Prop :=
  ∃ available, e = .unexpectedEnd n available ∧ available < n

theorem CursorError.IsShortOf.isShort {n : Nat} {e : CursorError} (h : e.IsShortOf n) :
    e.IsShort := by
  obtain ⟨available, rfl, hlt⟩ := h
  exact ⟨n, available, rfl, hlt⟩

def StreamError.IsTruncated (e : StreamError) : Prop :=
  ∃ needed available, e = .truncated needed available ∧ available < needed

theorem CursorError.IsShort.isTruncated {e : CursorError} (h : e.IsShort) :
    (StreamError.ofCursor e).IsTruncated := by
  obtain ⟨requested, available, rfl, hlt⟩ := h
  exact ⟨requested, available, rfl, hlt⟩

namespace FailsOnly
variable {P : ε → Prop} {m : Reading ε α}

theorem pure (a : α) : FailsOnly P (pure a : Reading ε α) := by
  intro r e r' h
  cases h

theorem mono {Q : ε → Prop} (hm : FailsOnly P m) (h : ∀ e, P e → Q e) : FailsOnly Q m :=
  fun r e r' hrun => h e (hm r e r' hrun)

theorem bind {f : α → Reading ε β} (hm : FailsOnly P m) (hf : ∀ a, FailsOnly P (f a)) :
    FailsOnly P (m >>= f) := by
  intro r e r' h
  cases hrun : m r with
  | ok a r₁ =>
    rw [bind_of_ok hrun] at h
    exact hf a _ _ _ h
  | error e₁ r₁ =>
    rw [bind_of_error hrun] at h
    cases h
    exact hm _ _ _ hrun

theorem map {f : α → β} (hm : FailsOnly P m) : FailsOnly P (m >>= fun a => Pure.pure (f a)) :=
  hm.bind fun a => pure (f a)

theorem adaptExcept {Q : ε' → Prop} {f : ε → ε'} (hm : FailsOnly P m) (hf : ∀ e, P e → Q (f e)) :
    FailsOnly Q (EStateM.adaptExcept f m) := by
  intro r e r' h
  cases hrun : m r with
  | ok a r₁ =>
    rw [adaptExcept_of_ok hrun] at h
    cases h
  | error e₁ r₁ =>
    rw [adaptExcept_of_error hrun] at h
    cases h
    exact hf _ (hm _ _ _ hrun)

theorem ofFnM {n : Nat} {f : Fin n → Reading ε α} (hf : ∀ i, FailsOnly P (f i)) :
    FailsOnly P (Vector.ofFnM f) := by
  induction n with
  | zero =>
    rw [Vector.ofFnM_zero]
    exact pure _
  | succ n ih =>
    rw [Vector.ofFnM_succ]
    exact (ih fun i => hf i.castSucc).bind fun xs => (hf (Fin.last n)).map

end FailsOnly

namespace Reader

theorem ensure_failsOnly (n : Nat) : FailsOnly CursorError.IsShort (ensure n) := by
  intro r e r' h
  by_cases hn : n ≤ r.remaining
  · rw [ensure_of_le hn] at h
    cases h
  · rw [ensure_of_lt (Nat.lt_of_not_le hn)] at h
    cases h
    exact ⟨_, _, rfl, Nat.lt_of_not_le hn⟩

theorem take_failsOnly_of (n : Nat) : FailsOnly (CursorError.IsShortOf n) (take n) := by
  intro r e r' h
  by_cases hn : n ≤ r.remaining
  · rw [take_of_le hn] at h
    cases h
  · rw [take_of_lt (Nat.lt_of_not_le hn)] at h
    cases h
    exact ⟨_, rfl, Nat.lt_of_not_le hn⟩

theorem take_failsOnly (n : Nat) : FailsOnly CursorError.IsShort (take n) :=
  (take_failsOnly_of n).mono fun _ he => he.isShort

theorem byte_failsOnly : FailsOnly CursorError.IsShort byte := (take_failsOnly 1).map

theorem word_failsOnly : FailsOnly (CursorError.IsShortOf 4) word := (take_failsOnly_of 4).map

end Reader

namespace Group

theorem unpackFields_failsOnly (w : Width) : FailsOnly CursorError.IsShort (unpackFields w) := by
  refine (Reader.take_failsOnly _).bind fun fixed => FailsOnly.ofFnM fun i => ?_
  dsimp only
  split
  · exact Reader.byte_failsOnly
  · exact FailsOnly.pure _

theorem unpack_failsOnly (w : Width) : FailsOnly CursorError.IsShort (unpack w) := by
  cases w with
  | one => exact FailsOnly.pure _
  | two => exact unpackFields_failsOnly .two
  | four => exact unpackFields_failsOnly .four
  | eight => exact (Reader.take_failsOnly 16).map

end Group

theorem Channel.decode_failsOnly (p : UInt8) (n : Nat) :
    FailsOnly StreamError.IsTruncated (decode p n) := by
  have hgroups : FailsOnly StreamError.IsTruncated (decodeGroups (Layout.groupCount n)) := by
    refine FailsOnly.adaptExcept ?_ fun e he => CursorError.IsShort.isTruncated he
    refine (Reader.take_failsOnly _).bind fun header => FailsOnly.ofFnM fun i => ?_
    exact (Reader.ensure_failsOnly _).bind fun _ => Group.unpack_failsOnly _
  exact hgroups.map

theorem Block.decode_failsOnly {size : Nat} (p : Record size) (n : Nat) :
    FailsOnly StreamError.IsTruncated (decode p n) :=
  (FailsOnly.ofFnM fun k : Fin size => Channel.decode_failsOnly (p.get k) n).map

theorem DeltaStream.decodeBlocks_failsOnly {size : Nat} (m count : Nat) (p : Record size) :
    FailsOnly StreamError.IsTruncated (decodeBlocks m count p) := by
  induction m generalizing count p with
  | zero => exact FailsOnly.pure _
  | succ m ih => exact (Block.decode_failsOnly p _).bind fun records => (ih _ _).map

namespace PlaneStream

theorem decodeChunk_failsOnly : FailsOnly (CursorError.IsShortOf 4) decodeChunk := by
  refine Reader.word_failsOnly.bind fun mask => FailsOnly.map (FailsOnly.ofFnM fun r => ?_)
  split
  · exact Reader.word_failsOnly
  · exact FailsOnly.pure _

theorem decodeChunks_failsOnly (m : Nat) :
    FailsOnly (CursorError.IsShortOf 4) (decodeChunks m) := by
  induction m with
  | zero => exact FailsOnly.pure _
  | succ m ih => exact decodeChunk_failsOnly.bind fun words => ih.map

theorem decodeColumn_failsOnly (n : Nat) : FailsOnly (CursorError.IsShortOf 4) (decodeColumn n) :=
  (decodeChunks_failsOnly _).map

end PlaneStream
end VertexPack
