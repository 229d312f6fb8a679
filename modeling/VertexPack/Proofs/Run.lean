/-! Runs of steps that share a state and may fail: one step after another, a step whose error
is renamed, and sessions, where the steps behind a refused one are run too. What a session has
done is told by its steps that succeeded. -/
namespace VertexPack
variable {ι ε ε' σ α β : Type}

section Bind
variable {m : EStateM ε σ α} {f : α → EStateM ε σ β} {s s' s'' : σ}

theorem bind_of_ok {a : α} (h : m s = .ok a s') : (m >>= f) s = f a s' := by
  change EStateM.bind m f s = _
  rw [EStateM.bind, h]

theorem bind_of_error {e : ε} (h : m s = .error e s') : (m >>= f) s = .error e s' := by
  change EStateM.bind m f s = _
  rw [EStateM.bind, h]

theorem bind_congr_run {m' : EStateM ε σ α} (h : m s = m' s) : (m >>= f) s = (m' >>= f) s := by
  change EStateM.bind m f s = EStateM.bind m' f s
  rw [EStateM.bind, EStateM.bind, h]

theorem bind_eq_ok_iff {b : β} :
    (m >>= f) s = .ok b s'' ↔ ∃ a s', m s = .ok a s' ∧ f a s' = .ok b s'' := by
  cases hm : m s with
  | ok a s₁ =>
    rw [bind_of_ok hm]
    constructor
    · intro h
      exact ⟨a, s₁, rfl, h⟩
    · intro h
      obtain ⟨_, _, ha, h⟩ := h
      cases ha
      exact h
  | error e s₁ => simp [bind_of_error hm]

theorem adaptExcept_of_ok {g : ε → ε'} {a : α} (h : m s = .ok a s') :
    EStateM.adaptExcept g m s = .ok a s' := by
  rw [EStateM.adaptExcept, h]

theorem adaptExcept_of_error {g : ε → ε'} {e : ε} (h : m s = .error e s') :
    EStateM.adaptExcept g m s = .error (g e) s' := by
  rw [EStateM.adaptExcept, h]

theorem adaptExcept_eq_ok_iff {g : ε → ε'} {a : α} :
    EStateM.adaptExcept g m s = .ok a s' ↔ m s = .ok a s' := by
  cases hm : m s with
  | ok b s₁ => rw [adaptExcept_of_ok hm]; simp
  | error e s₁ => simp [adaptExcept_of_error hm]

end Bind

def ending : EStateM.Result ε σ α → Except ε α × σ
  | .ok a s => (.ok a, s)
  | .error e s => (.error e, s)

/-- Runs a step for each item, whether those before it succeeded or not, and gives every item with
what its step ended with. -/
def runAll (step : ι → EStateM ε σ α) : List ι → σ → List (ι × Except ε α) × σ
  | [], s => ([], s)
  | i :: is, s =>
    let first := ending (step i s)
    let rest := runAll step is first.2
    ((i, first.1) :: rest.1, rest.2)

def successes : List (ι × Except ε α) → List (ι × α)
  | [] => []
  | (i, .ok a) :: rest => (i, a) :: successes rest
  | (_, .error _) :: rest => successes rest

section Run
variable {step : ι → EStateM ε σ α} {i : ι} {s s' : σ}

theorem runAll_cons_of_ok {a : α} (h : step i s = .ok a s') (is : List ι) :
    runAll step (i :: is) s = ((i, .ok a) :: (runAll step is s').1, (runAll step is s').2) := by
  rw [runAll, h, ending]

theorem runAll_cons_of_error {e : ε} (h : step i s = .error e s') (is : List ι) :
    runAll step (i :: is) s = ((i, .error e) :: (runAll step is s').1, (runAll step is s').2) := by
  rw [runAll, h, ending]

theorem map_fst_runAll (step : ι → EStateM ε σ α) (is : List ι) (s : σ) :
    (runAll step is s).1.map Prod.fst = is := by
  induction is generalizing s with
  | nil => rfl
  | cons i is ih => rw [runAll, List.map_cons, ih]

/-- What holds at the start and is kept by every step, whether it succeeds or is refused, holds
behind a session. -/
theorem runAll_keeps (inv : List (ι × α) → σ → Prop)
    (hok : ∀ {done s i a s'}, inv done s → step i s = .ok a s' → inv (done ++ [(i, a)]) s')
    (herror : ∀ {done s i e s'}, inv done s → step i s = .error e s' → inv done s')
    (hstart : inv [] s) (is : List ι) :
    inv (successes (runAll step is s).1) (runAll step is s).2 := by
  -- The induction is on the items, for whatever has been done before them.
  have hfrom (done : List (ι × α)) (h : inv done s) :
      inv (done ++ successes (runAll step is s).1) (runAll step is s).2 := by
    clear hstart
    induction is generalizing done s with
    | nil => rwa [runAll, successes, List.append_nil]
    | cons i is ih =>
      cases hrun : step i s with
      | ok a s' =>
        have hnext := ih _ (hok h hrun)
        rw [List.append_assoc, List.singleton_append] at hnext
        rwa [runAll_cons_of_ok hrun, successes]
      | error e s' =>
        rw [runAll_cons_of_error hrun, successes]
        exact ih done (herror h hrun)
  exact hfrom [] hstart

end Run
end VertexPack
