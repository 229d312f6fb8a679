import VertexPack.Bytes
import VertexPack.Reader
import VertexPack.Proofs.Reading

/-! Reading with guards. Every index, slice, difference, quotient, sum and shift that the unguarded
steps compute with a default for what is out of range is here an access that faults there.
Guarded steps are compared with unguarded ones step by step. -/
namespace VertexPack

/-- What stops a guarded step: an access out of its range, or an error of the step itself. -/
inductive Fault (ε : Type) where
  | outOfRange
  | error (cause : ε)

def Fault.map {ε ε' : Type} (f : ε → ε') : Fault ε → Fault ε'
  | outOfRange => outOfRange
  | error cause => error (f cause)

abbrev Guarded (ε : Type) := EStateM (Fault ε) Reader

variable {ε ε' α β : Type}

namespace Access

def slice (xs : List α) (start stop : Nat) : Option (List α) :=
  if start ≤ stop ∧ stop ≤ xs.length then some ((xs.drop start).take (stop - start)) else none

def exactly (n : Nat) (xs : List α) : Option (Vector α n) :=
  if h : xs.length = n then some ⟨xs.toArray, by simpa using h⟩ else none

def difference (a b : Nat) : Option Nat := if b ≤ a then some (a - b) else none

def quotient (a b : Nat) : Option Nat := if b = 0 then none else some (a / b)

def remainder (a b : Nat) : Option Nat := if b = 0 then none else some (a % b)

def shiftRight (b : UInt8) (n : Nat) : Option UInt8 :=
  if n < 8 then some (b >>> n.toUInt8) else none

def wordShiftLeft (w : UInt32) (n : Nat) : Option UInt32 :=
  if n < 32 then some (w <<< n.toUInt32) else none

def wordShiftRight (w : UInt32) (n : Nat) : Option UInt32 :=
  if n < 32 then some (w >>> n.toUInt32) else none

theorem slice_of_le (xs : List α) {start stop : Nat} (h : start ≤ stop) (h' : stop ≤ xs.length) :
    slice xs start stop = some ((xs.drop start).take (stop - start)) := if_pos ⟨h, h'⟩

theorem exactly_of_eq {n : Nat} {xs : List α} (h : xs.length = n) :
    exactly n xs = some ⟨xs.toArray, by simpa using h⟩ := dif_pos h

theorem difference_of_le {a b : Nat} (h : b ≤ a) : difference a b = some (a - b) := if_pos h

theorem quotient_of_pos {a b : Nat} (h : 0 < b) : quotient a b = some (a / b) :=
  if_neg (Nat.pos_iff_ne_zero.1 h)

theorem remainder_of_pos {a b : Nat} (h : 0 < b) : remainder a b = some (a % b) :=
  if_neg (Nat.pos_iff_ne_zero.1 h)

theorem shiftRight_of_lt {b : UInt8} {n : Nat} (h : n < 8) :
    shiftRight b n = some (b >>> n.toUInt8) := if_pos h

theorem wordShiftLeft_of_lt {w : UInt32} {n : Nat} (h : n < 32) :
    wordShiftLeft w n = some (w <<< n.toUInt32) := if_pos h

theorem wordShiftRight_of_lt {w : UInt32} {n : Nat} (h : n < 32) :
    wordShiftRight w n = some (w >>> n.toUInt32) := if_pos h

end Access

namespace Guarded

def access : Option α → Guarded ε α
  | some a => pure a
  | none => throw .outOfRange

def check (p : Prop) [Decidable p] : Guarded ε Unit := access (if p then some () else none)

def fail (e : ε) : Guarded ε α := throw (.error e)

def adapt (f : ε → ε') (g : Guarded ε α) : Guarded ε' α := EStateM.adaptExcept (Fault.map f) g

def ofExcept : Except ε α → Guarded ε α
  | .ok a => pure a
  | .error e => fail e

theorem access_some_bind (a : α) (f : α → Guarded ε β) : (access (some a) >>= f) = f a := rfl

theorem ofExcept_ok_bind (a : α) (f : α → Guarded ε β) : (ofExcept (.ok a) >>= f) = f a := rfl

theorem check_bind {p : Prop} [Decidable p] (h : p) (f : Unit → Guarded ε β) :
    (check p >>= f) = f () := by
  rw [check, if_pos h]
  rfl

end Guarded

/-- The guarded step does what the unguarded one does from `r` on; so it does not fault. -/
structure GuardsAt (r : Reader) (g : Guarded ε α) (m : Reading ε α) : Prop where
  ok : ∀ {a r'}, m r = .ok a r' → g r = .ok a r' ∧ r'.data = r.data
  error : ∀ {e r'}, m r = .error e r' → g r = .error (.error e) r'

def Guards (g : Guarded ε α) (m : Reading ε α) : Prop :=
  ∀ r : Reader, r.data.length < Capacity.limit → GuardsAt r g m

namespace GuardsAt
variable {r : Reader} {g : Guarded ε α} {m : Reading ε α}

theorem of_ok {a : α} {r' : Reader} (hm : m r = .ok a r') (hg : g r = .ok a r')
    (hdata : r'.data = r.data) : GuardsAt r g m where
  ok := by
    intro b r₁ h
    rw [hm] at h
    cases h
    exact ⟨hg, hdata⟩
  error := by
    intro e r₁ h
    rw [hm] at h
    cases h

theorem of_error {e : ε} {r' : Reader} (hm : m r = .error e r') (hg : g r = .error (.error e) r') :
    GuardsAt r g m where
  ok := by
    intro b r₁ h
    rw [hm] at h
    cases h
  error := by
    intro e r₁ h
    rw [hm] at h
    cases h
    exact hg

theorem congr {g' : Guarded ε α} {m' : Reading ε α} (hg : g r = g' r) (hm : m r = m' r)
    (h : GuardsAt r g' m') : GuardsAt r g m where
  ok := by
    intro a r' hrun
    rw [hg]
    exact h.ok (hm ▸ hrun)
  error := by
    intro e r' hrun
    rw [hg]
    exact h.error (hm ▸ hrun)

/-- A guarded step may find another value than the unguarded one, if that is told from it. -/
theorem bind_map {γ : Type} {u : γ → α} {m : Reading ε γ} {f : α → Guarded ε β}
    {k : γ → Reading ε β} (h : GuardsAt r g (m >>= fun c => pure (u c)))
    (hf : ∀ c r', r'.data = r.data → GuardsAt r' (f (u c)) (k c)) :
    GuardsAt r (g >>= f) (m >>= k) := by
  cases hm : m r with
  | ok c r₁ =>
    obtain ⟨hg, hdata⟩ := h.ok (bind_of_ok hm)
    have hnext := hf c r₁ hdata
    constructor
    · intro b r' hrun
      rw [bind_of_ok hm] at hrun
      obtain ⟨hgb, hdata'⟩ := hnext.ok hrun
      exact ⟨(bind_of_ok hg).trans hgb, hdata'.trans hdata⟩
    · intro e r' hrun
      rw [bind_of_ok hm] at hrun
      exact (bind_of_ok hg).trans (hnext.error hrun)
  | error e r₁ =>
    exact of_error (bind_of_error hm) (bind_of_error (h.error (bind_of_error hm)))

theorem bind {f : α → Guarded ε β} {k : α → Reading ε β} (h : GuardsAt r g m)
    (hf : ∀ a r', r'.data = r.data → GuardsAt r' (f a) (k a)) :
    GuardsAt r (g >>= f) (m >>= k) :=
  bind_map (by rwa [bind_pure]) hf

theorem adapt {f : ε → ε'} (h : GuardsAt r g m) :
    GuardsAt r (Guarded.adapt f g) (EStateM.adaptExcept f m) := by
  cases hm : m r with
  | ok a r₁ =>
    obtain ⟨hg, hdata⟩ := h.ok hm
    exact of_ok (adaptExcept_of_ok hm) (adaptExcept_of_ok hg) hdata
  | error e r₁ => exact of_error (adaptExcept_of_error hm) (adaptExcept_of_error (h.error hm))

theorem access_bind {γ : Type} {o : Option γ} {c : γ} {f : γ → Guarded ε α} (ho : o = some c)
    (h : GuardsAt r (f c) m) : GuardsAt r (Guarded.access o >>= f) m := by
  rw [ho, Guarded.access_some_bind]
  exact h

theorem check_bind {p : Prop} [Decidable p] {f : Unit → Guarded ε α} (hp : p)
    (h : GuardsAt r (f ()) m) : GuardsAt r (Guarded.check p >>= f) m := by
  rw [Guarded.check_bind hp]
  exact h

end GuardsAt

namespace Guards
variable {g : Guarded ε α} {m : Reading ε α}

theorem pure (a : α) : Guards (pure a : Guarded ε α) (pure a) :=
  fun _ _ => GuardsAt.of_ok rfl rfl rfl

theorem fail (e : ε) : Guards (Guarded.fail e : Guarded ε α) (throw e) :=
  fun _ _ => GuardsAt.of_error rfl rfl

theorem bind_map {γ : Type} {u : γ → α} {m : Reading ε γ} {f : α → Guarded ε β}
    {k : γ → Reading ε β} (h : Guards g (m >>= fun c => Pure.pure (u c)))
    (hf : ∀ c, Guards (f (u c)) (k c)) : Guards (g >>= f) (m >>= k) :=
  fun r hlim => (h r hlim).bind_map fun c r' hdata => hf c r' (hdata ▸ hlim)

theorem bind {f : α → Guarded ε β} {k : α → Reading ε β} (h : Guards g m)
    (hf : ∀ a, Guards (f a) (k a)) : Guards (g >>= f) (m >>= k) :=
  fun r hlim => (h r hlim).bind fun a r' hdata => hf a r' (hdata ▸ hlim)

theorem map {f : α → β} (h : Guards g m) :
    Guards (g >>= fun a => Pure.pure (f a)) (m >>= fun a => Pure.pure (f a)) :=
  h.bind fun a => pure (f a)

theorem adapt {f : ε → ε'} (h : Guards g m) :
    Guards (Guarded.adapt f g) (EStateM.adaptExcept f m) := fun r hlim => (h r hlim).adapt

theorem ite {p : Prop} [Decidable p] {g' : Guarded ε α} {m' : Reading ε α}
    (h : p → Guards g m) (h' : ¬ p → Guards g' m') :
    Guards (if p then g else g') (if p then m else m') := by
  by_cases hp : p
  · rw [if_pos hp, if_pos hp]
    exact h hp
  · rw [if_neg hp, if_neg hp]
    exact h' hp

theorem ofFnM {n : Nat} {f : Fin n → Guarded ε α} {k : Fin n → Reading ε α}
    (h : ∀ i, Guards (f i) (k i)) : Guards (Vector.ofFnM f) (Vector.ofFnM k) := by
  induction n with
  | zero =>
    rw [Vector.ofFnM_zero, Vector.ofFnM_zero]
    exact pure _
  | succ n ih =>
    rw [Vector.ofFnM_succ, Vector.ofFnM_succ]
    exact (ih fun i => h i.castSucc).bind fun xs => (h (Fin.last n)).map

theorem access_bind {γ : Type} {o : Option γ} {c : γ} {f : γ → Guarded ε α} (ho : o = some c)
    (h : Guards (f c) m) : Guards (Guarded.access o >>= f) m :=
  fun r hlim => (h r hlim).access_bind ho

theorem check_bind {p : Prop} [Decidable p] {f : Unit → Guarded ε α} (hp : p)
    (h : Guards (f ()) m) : Guards (Guarded.check p >>= f) m :=
  fun r hlim => (h r hlim).check_bind hp

end Guards

theorem Reader.byte_of_cons {r : Reader} {b : UInt8} {bs : List UInt8} (h : r.rest = b :: bs) :
    byte r = .ok b (r.skip 1) := by
  have hmove : r.Moves [b] (r.skip 1) := by
    have hskip := r.moves_skip (n := 1)
    rwa [h] at hskip
  exact Reads.byte.complete rfl hmove (Nat.zero_le _)

namespace Guarded

def remaining : Guarded ε Nat := do
  let r ← get
  access (Access.difference r.data.length r.position)

def ensure (n : Nat) : Guarded CursorError Unit := do
  let left ← remaining
  if n ≤ left then pure () else fail (.unexpectedEnd n left)

def bytes (n : Nat) : Guarded CursorError (List UInt8) := do
  ensure n
  let r ← get
  let stop ← access (Capacity.add r.position n)
  let bs ← access (Access.slice r.data r.position stop)
  set (r.skip n)
  pure bs

def byte : Guarded CursorError UInt8 := do
  ensure 1
  let r ← get
  let b ← access r.data[r.position]?
  set (r.skip 1)
  pure b

def word : Guarded CursorError UInt32 := do
  let bs ← bytes 4
  let four ← access (Access.exactly 4 bs)
  pure (Word.ofBytes four.toList)

def tail (n : Nat) : Guarded CursorError (List UInt8) := do
  let r ← get
  if n ≤ r.data.length then
    let start ← access (Access.difference r.data.length n)
    access (Access.slice r.data start r.data.length)
  else fail (.unexpectedEnd n r.data.length)

def expectLeft (n : Nat) : Guarded StreamError Unit := do
  let left ← remaining
  if left = n then pure () else fail (.trailingData n left)

variable {r : Reader}

theorem remaining_eq (r : Reader) : (remaining : Guarded ε Nat) r = .ok r.remaining r := by
  have h := r.position_add_remaining
  change access (Access.difference r.data.length r.position) r = _
  rw [Access.difference_of_le (by omega), show r.data.length - r.position = r.remaining by omega]
  rfl

theorem expectLeft_of_eq {n : Nat} (h : r.remaining = n) : expectLeft n r = .ok () r := by
  rw [expectLeft, bind_of_ok (remaining_eq r), if_pos h]
  rfl

theorem expectLeft_of_ne {n : Nat} (h : r.remaining ≠ n) :
    expectLeft n r = .error (.error (.trailingData n r.remaining)) r := by
  rw [expectLeft, bind_of_ok (remaining_eq r), if_neg h]
  rfl

theorem ensure_of_le {n : Nat} (h : n ≤ r.remaining) : ensure n r = .ok () r := by
  rw [ensure, bind_of_ok (remaining_eq r), if_pos h]
  rfl

theorem ensure_of_lt {n : Nat} (h : r.remaining < n) :
    ensure n r = .error (.error (.unexpectedEnd n r.remaining)) r := by
  rw [ensure, bind_of_ok (remaining_eq r), if_neg (Nat.not_le.2 h)]
  rfl

theorem bytes_of_le {n : Nat} (hlim : r.data.length < Capacity.limit) (h : n ≤ r.remaining) :
    bytes n r = .ok (r.rest.take n) (r.skip n) := by
  have hposition := r.position_add_remaining
  have hstop : Capacity.add r.position n = some (r.position + n) :=
    Capacity.checked_eq_some_iff.2 ⟨by omega, rfl⟩
  have hslice := Access.slice_of_le r.data (Nat.le_add_right r.position n) (by omega)
  rw [r.drop_position, Nat.add_sub_cancel_left] at hslice
  rw [bytes, bind_of_ok (ensure_of_le h)]
  change (access (Capacity.add r.position n) >>= fun stop => _) r = _
  rw [hstop, access_some_bind, hslice]
  rfl

theorem bytes_of_lt {n : Nat} (h : r.remaining < n) :
    bytes n r = .error (.error (.unexpectedEnd n r.remaining)) r := by
  rw [bytes, bind_of_error (ensure_of_lt h)]

theorem byte_of_cons {b : UInt8} {bs : List UInt8} (h : r.rest = b :: bs) :
    byte r = .ok b (r.skip 1) := by
  have hroom : 1 ≤ r.remaining := by simp [Reader.remaining, h]
  have hentry : r.data[r.position]? = some b := by
    rw [← Nat.add_zero r.position, ← List.getElem?_drop, r.drop_position, h]
    rfl
  rw [byte, bind_of_ok (ensure_of_le hroom)]
  change (access r.data[r.position]? >>= fun b => _) r = _
  rw [hentry, access_some_bind]
  rfl

theorem tail_of_le {n : Nat} (h : n ≤ r.data.length) :
    tail n r = .ok (r.data.drop (r.data.length - n)) r := by
  have hslice := Access.slice_of_le r.data (Nat.sub_le r.data.length n) (Nat.le_refl r.data.length)
  rw [List.take_of_length_le (by rw [List.length_drop])] at hslice
  change (if n ≤ r.data.length then
    access (Access.difference r.data.length n) >>= fun start => _ else _ : Guarded _ _) r = _
  rw [if_pos h, Access.difference_of_le h, access_some_bind, hslice]
  rfl

end Guarded

namespace Guards

theorem ensure (n : Nat) : Guards (Guarded.ensure n) (Reader.ensure n) := by
  intro r _
  by_cases hn : n ≤ r.remaining
  · exact GuardsAt.of_ok (Reader.ensure_of_le hn) (Guarded.ensure_of_le hn) rfl
  · have hlt := Nat.lt_of_not_le hn
    exact GuardsAt.of_error (Reader.ensure_of_lt hlt) (Guarded.ensure_of_lt hlt)

theorem bytes (n : Nat) :
    Guards (Guarded.bytes n) (Reader.take n >>= fun bs => Pure.pure bs.1) := by
  intro r hlim
  by_cases hn : n ≤ r.remaining
  · exact GuardsAt.of_ok (bind_of_ok (Reader.take_of_le hn)) (Guarded.bytes_of_le hlim hn) rfl
  · have hlt := Nat.lt_of_not_le hn
    exact GuardsAt.of_error (bind_of_error (Reader.take_of_lt hlt)) (Guarded.bytes_of_lt hlt)

theorem byte : Guards Guarded.byte Reader.byte := by
  intro r _
  cases hr : r.rest with
  | nil =>
    have hlt : r.remaining < 1 := by simp [Reader.remaining, hr]
    exact GuardsAt.of_error (bind_of_error (Reader.take_of_lt hlt))
      (bind_of_error (Guarded.ensure_of_lt hlt))
  | cons b bs => exact GuardsAt.of_ok (Reader.byte_of_cons hr) (Guarded.byte_of_cons hr) rfl

theorem word : Guards Guarded.word Reader.word :=
  (bytes 4).bind_map fun bs => access_bind (Access.exactly_of_eq bs.2) (pure _)

end Guards

theorem GuardsAt.expectLeft {r : Reader} {n : Nat} {a : α} {m : Reading StreamError α}
    (hok : r.remaining = n → m r = .ok a r)
    (herror : r.remaining ≠ n → m r = .error (.trailingData n r.remaining) r) :
    GuardsAt r (Guarded.expectLeft n >>= fun _ => pure a) m := by
  by_cases hleft : r.remaining = n
  · exact of_ok (hok hleft) (bind_of_ok (Guarded.expectLeft_of_eq hleft)) rfl
  · exact of_error (herror hleft) (bind_of_error (Guarded.expectLeft_of_ne hleft))

end VertexPack
