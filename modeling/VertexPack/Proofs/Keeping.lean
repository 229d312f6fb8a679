import VertexPack.Error
import VertexPack.Proofs.Run

/-! Steps of a cursor with something kept beside it. What is kept is hidden as long as an invariant
of it is all that the steps rely on: the cursor then goes the way it goes without it. -/
namespace VertexPack

structure Beside (κ β : Type) where
  cursor : κ
  kept : β

/-- Steps of a cursor with something kept beside it. -/
abbrev Keeping (κ β : Type) := EStateM StreamError (Beside κ β)

def withKept {κ β α : Type} (b : β) :
    EStateM.Result StreamError κ α → EStateM.Result StreamError (Beside κ β) α
  | .ok a k => .ok a ⟨k, b⟩
  | .error e k => .error e ⟨k, b⟩

namespace Keeping
variable {κ β α γ : Type}

def step (m : EStateM StreamError κ α) : Keeping κ β α := fun c => withKept c.kept (m c.cursor)

def look (v : β → α) : Keeping κ β α := fun c => .ok (v c.kept) c

def change (g : β → β) : Keeping κ β Unit := fun c => .ok () { c with kept := g c.kept }

def alone (b : β) (f : Keeping κ β α) : EStateM StreamError κ α := fun k =>
  match f ⟨k, b⟩ with
  | .ok a c => .ok a c.cursor
  | .error e c => .error e c.cursor

theorem step_of_ok {m : EStateM StreamError κ α} {a : α} {k k' : κ} (b : β) (h : m k = .ok a k') :
    step m ⟨k, b⟩ = .ok a ⟨k', b⟩ := congrArg (withKept b) h

theorem step_of_error {m : EStateM StreamError κ α} {e : StreamError} {k k' : κ} (b : β)
    (h : m k = .error e k') : step m ⟨k, b⟩ = .error e ⟨k', b⟩ := congrArg (withKept b) h

end Keeping

/-- As long as `I` holds of what is kept, the cursor goes the way of the other step, and `I` goes on
holding. -/
def Simulates {κ β α : Type} (I : β → Prop) (f : Keeping κ β α) (m : EStateM StreamError κ α) :
    Prop :=
  ∀ k b, I b → ∃ b', I b' ∧ f ⟨k, b⟩ = withKept b' (m k)

namespace Simulates
variable {κ β α γ : Type} {I : β → Prop} {f : Keeping κ β α} {m : EStateM StreamError κ α}

theorem step (m : EStateM StreamError κ α) : Simulates I (Keeping.step m) m :=
  fun _ b hb => ⟨b, hb, rfl⟩

theorem pure (a : α) : Simulates I (pure a : Keeping κ β α) (pure a) := fun _ b hb => ⟨b, hb, rfl⟩

theorem bind {g : α → Keeping κ β γ} {m' : α → EStateM StreamError κ γ} (h : Simulates I f m)
    (h' : ∀ a, Simulates I (g a) (m' a)) : Simulates I (f >>= g) (m >>= m') := by
  intro k b hb
  obtain ⟨b₁, hb₁, hf⟩ := h k b hb
  cases hm : m k with
  | ok a k' =>
    rw [hm] at hf
    obtain ⟨b₂, hb₂, hg⟩ := h' a k' b₁ hb₁
    exact ⟨b₂, hb₂, by rw [bind_of_ok hf, hg, bind_of_ok hm]⟩
  | error e k' =>
    rw [hm] at hf
    exact ⟨b₁, hb₁, by rw [bind_of_error hf, bind_of_error hm]; rfl⟩

/-- What stays as it is does not matter to the cursor. -/
theorem run_eq {b : β} (h : Simulates (· = b) f m) (k : κ) :
    f ⟨k, b⟩ = Keeping.step m ⟨k, b⟩ := by
  obtain ⟨b', hb', hf⟩ := h k b rfl
  rw [hf, hb']
  rfl

theorem alone_eq {b : β} (h : Simulates I f m) (hb : I b) : Keeping.alone b f = m := by
  funext k
  obtain ⟨b', -, hf⟩ := h k b hb
  rw [Keeping.alone, hf]
  cases m k <;> rfl

theorem bind_of_pure {a : α} {g : α → Keeping κ β γ} {m : EStateM StreamError κ γ}
    (h : Simulates I f (Pure.pure a)) (h' : Simulates I (g a) m) : Simulates I (f >>= g) m := by
  intro k b hb
  obtain ⟨b₁, hb₁, hf⟩ := h k b hb
  obtain ⟨b₂, hb₂, hg⟩ := h' k b₁ hb₁
  exact ⟨b₂, hb₂, (bind_of_ok hf).trans hg⟩

theorem look {v : β → α} {a : α} (h : ∀ b, I b → v b = a) :
    Simulates I (Keeping.look v : Keeping κ β α) (Pure.pure a) := by
  intro k b hb
  refine ⟨b, hb, ?_⟩
  rw [← h b hb]
  rfl

theorem forM {ι : Type} {f : ι → Keeping κ β Unit} {m : ι → EStateM StreamError κ Unit}
    (l : List ι) (h : ∀ i ∈ l, Simulates I (f i) (m i)) : Simulates I (l.forM f) (l.forM m) := by
  induction l with
  | nil => exact pure ()
  | cons i l ih =>
    obtain ⟨hi, hl⟩ := List.forall_mem_cons.1 h
    exact hi.bind fun _ => ih hl

theorem ofFnM {n : Nat} {f : Fin n → Keeping κ β α} {m : Fin n → EStateM StreamError κ α}
    (h : ∀ i, Simulates I (f i) (m i)) : Simulates I (Vector.ofFnM f) (Vector.ofFnM m) := by
  induction n with
  | zero =>
    rw [Vector.ofFnM_zero, Vector.ofFnM_zero]
    exact pure _
  | succ n ih =>
    rw [Vector.ofFnM_succ, Vector.ofFnM_succ]
    exact (ih fun i => h i.castSucc).bind fun xs => (h (Fin.last n)).bind fun x => pure _

theorem foldlM {ι : Type} {f : α → ι → Keeping κ β α} {g : α → ι → α}
    (h : ∀ a i, Simulates I (f a i) (Pure.pure (g a i))) (l : List ι) (a : α) :
    Simulates I (l.foldlM f a) (Pure.pure (l.foldl g a)) := by
  induction l generalizing a with
  | nil => exact pure a
  | cons i l ih => exact (h a i).bind_of_pure (ih (g a i))

end Simulates
end VertexPack
