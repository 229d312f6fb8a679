import VertexPack.Reader
import VertexPack.Proofs.Run
import Mathlib.Data.List.OfFn

/-! Which bytes a reading step takes. A step is described by the byte strings that
stand for its values, in both directions: what it reads is one of them, and it reads
each of them wherever enough bytes follow. -/
namespace VertexPack
variable {ε ε' α β : Type}

namespace Reader

/-- `r'` stands behind the bytes `bs` that come next in `r`. -/
structure Moves (r : Reader) (bs : List UInt8) (r' : Reader) : Prop where
  data_eq : r'.data = r.data
  rest_eq : r.rest = bs ++ r'.rest

variable {r r₁ r₂ : Reader} {u v bs : List UInt8}

theorem eq_of_data_of_rest (hd : r₁.data = r₂.data) (hr : r₁.rest = r₂.rest) : r₁ = r₂ := by
  cases r₁
  cases r₂
  simp_all

theorem moves_nil (r : Reader) : r.Moves [] r := ⟨rfl, rfl⟩

theorem Moves.eq_of_nil (h : r.Moves [] r₁) : r₁ = r :=
  eq_of_data_of_rest h.data_eq h.rest_eq.symm

theorem Moves.trans (h₁ : r.Moves u r₁) (h₂ : r₁.Moves v r₂) : r.Moves (u ++ v) r₂ := by
  constructor
  · rw [h₂.data_eq, h₁.data_eq]
  · rw [h₁.rest_eq, h₂.rest_eq, List.append_assoc]

theorem Moves.remaining_eq (h : r.Moves bs r₁) : r.remaining = bs.length + r₁.remaining := by
  simp [remaining, h.rest_eq]

theorem moves_skip {n : Nat} (r : Reader) : r.Moves (r.rest.take n) (r.skip n) :=
  ⟨rfl, (List.take_append_drop n r.rest).symm⟩

theorem Moves.skip_eq (h : r.Moves bs r₁) : r.skip bs.length = r₁ := by
  apply eq_of_data_of_rest
  · exact h.data_eq.symm
  · simp [skip, h.rest_eq]

theorem exists_moves (h : r.rest = u ++ v) : ∃ r', r.Moves u r' ∧ r'.rest = v := by
  have hskip : (r.skip u.length).rest = v := by simp [skip, h]
  exact ⟨r.skip u.length, ⟨rfl, by rw [hskip, h]⟩, hskip⟩

theorem Moves.split (h : r.Moves (u ++ v) r₂) : ∃ r₁, r.Moves u r₁ ∧ r₁.Moves v r₂ := by
  have hr : r.rest = u ++ (v ++ r₂.rest) := by rw [h.rest_eq, List.append_assoc]
  obtain ⟨r₁, h₁, hrest⟩ := exists_moves hr
  exact ⟨r₁, h₁, ⟨h.data_eq.trans h₁.data_eq.symm, hrest⟩⟩

end Reader

/-- `form` tells which bytes stand for a value; with `h` bytes behind them the step
reads them, and it reads nothing else. -/
structure Reads (h : Nat) (m : Reading ε α) (form : α → List UInt8 → Prop) : Prop where
  sound : ∀ {r a r'}, m r = .ok a r' → ∃ bs, form a bs ∧ r.Moves bs r'
  complete : ∀ {r a r' bs}, form a bs → r.Moves bs r' → h ≤ r'.remaining → m r = .ok a r'

namespace Reads
variable {h : Nat} {m : Reading ε α} {P Q : α → List UInt8 → Prop}

theorem congr (hm : Reads h m P) (hPQ : ∀ a bs, P a bs ↔ Q a bs) : Reads h m Q := by
  have hQ : P = Q := by
    funext a bs
    exact propext (hPQ a bs)
  rwa [← hQ]

theorem pure (a : α) : Reads h (pure a : Reading ε α) fun b bs => b = a ∧ bs = [] where
  sound := by
    intro r b r' hb
    cases hb
    exact ⟨[], ⟨rfl, rfl⟩, r.moves_nil⟩
  complete := by
    rintro r b r' bs ⟨rfl, rfl⟩ hr _
    rw [hr.eq_of_nil]
    rfl

theorem bind {f : α → Reading ε β} {R : α → β → List UInt8 → Prop}
    (hm : Reads h m P) (hf : ∀ a, Reads h (f a) (R a)) :
    Reads h (m >>= f) fun b bs => ∃ a u v, P a u ∧ R a b v ∧ bs = u ++ v where
  sound := by
    intro r b r' hb
    obtain ⟨a, r₁, ha, hb⟩ := bind_eq_ok_iff.1 hb
    obtain ⟨u, hu, hr₁⟩ := hm.sound ha
    obtain ⟨v, hv, hr'⟩ := (hf a).sound hb
    exact ⟨u ++ v, ⟨a, u, v, hu, hv, rfl⟩, hr₁.trans hr'⟩
  complete := by
    rintro r b r' bs ⟨a, u, v, hu, hv, rfl⟩ hr hr'
    obtain ⟨r₁, h₁, h₂⟩ := hr.split
    have hle : h ≤ r₁.remaining := by
      rw [h₂.remaining_eq]
      omega
    exact bind_eq_ok_iff.2 ⟨a, r₁, hm.complete hu h₁ hle, (hf a).complete hv h₂ hr'⟩

theorem map {f : α → β} (hm : Reads h m P) :
    Reads h (m >>= fun a => Pure.pure (f a)) fun b bs => ∃ a, P a bs ∧ b = f a := by
  refine (hm.bind fun a => Reads.pure (f a)).congr fun b bs => ?_
  constructor
  · rintro ⟨a, u, v, hu, ⟨rfl, rfl⟩, rfl⟩
    exact ⟨a, by simpa using hu, rfl⟩
  · rintro ⟨a, ha, rfl⟩
    exact ⟨a, bs, [], ha, ⟨rfl, rfl⟩, by simp⟩

theorem adaptExcept {f : ε → ε'} (hm : Reads h m P) : Reads h (EStateM.adaptExcept f m) P where
  sound ha := hm.sound (adaptExcept_eq_ok_iff.1 ha)
  complete hP hr hr' := adaptExcept_eq_ok_iff.2 (hm.complete hP hr hr')

theorem ensure {n : Nat} (hn : n ≤ h) : Reads h (Reader.ensure n) fun _ bs => bs = [] where
  sound := by
    intro r a r' ha
    unfold Reader.ensure at ha
    split at ha
    · cases ha
      exact ⟨[], rfl, r.moves_nil⟩
    · cases ha
  complete := by
    rintro r a r' bs rfl hr hr'
    rw [hr.eq_of_nil] at hr' ⊢
    exact Reader.ensure_of_le (hn.trans hr')

theorem take (n : Nat) : Reads h (Reader.take n) fun a bs => a.1 = bs where
  sound := by
    intro r a r' ha
    by_cases hn : n ≤ r.remaining
    · rw [Reader.take_of_le hn] at ha
      cases ha
      exact ⟨_, rfl, r.moves_skip⟩
    · rw [Reader.take_of_lt (Nat.lt_of_not_le hn)] at ha
      cases ha
  complete := by
    rintro r ⟨bs, rfl⟩ r' _ rfl hr hr'
    have hn : bs.length ≤ r.remaining := by
      rw [hr.remaining_eq]
      simp
    have ht : r.rest.take bs.length = bs := by rw [hr.rest_eq, List.take_left]
    rw [Reader.take_of_le hn]
    simp only [hr.skip_eq, ht]

theorem byte : Reads h Reader.byte fun b bs => bs = [b] := by
  refine ((take 1).map (f := fun a => a.1.get ⟨0, by simp [a.2]⟩)).congr fun b bs => ?_
  constructor
  · rintro ⟨⟨u, hu⟩, rfl, rfl⟩
    obtain ⟨x, rfl⟩ := List.length_eq_one_iff.1 hu
    rfl
  · rintro rfl
    exact ⟨⟨[b], rfl⟩, rfl, rfl⟩

/-- Where enough bytes follow, no string of a value begins another one. -/
theorem append_inj (hm : Reads h m P) {a b : α} {u v x y : List UInt8} (ha : P a u) (hb : P b v)
    (hx : h ≤ x.length) (hy : h ≤ y.length) (heq : u ++ x = v ++ y) : a = b ∧ x = y := by
  obtain ⟨r₁, hmove₁, rfl⟩ := Reader.exists_moves (r := .ofBytes (u ++ x)) rfl
  obtain ⟨r₂, hmove₂, rfl⟩ := Reader.exists_moves (r := .ofBytes (u ++ r₁.rest)) heq
  have hrun := hm.complete ha hmove₁ hx
  rw [hm.complete hb hmove₂ hy] at hrun
  cases hrun
  exact ⟨rfl, rfl⟩

theorem ofFnM {n : Nat} {f : Fin n → Reading ε α} {R : Fin n → α → List UInt8 → Prop}
    (hf : ∀ i, Reads h (f i) (R i)) :
    Reads h (Vector.ofFnM f) fun xs bs =>
      ∃ parts : Fin n → List UInt8, (∀ i, R i xs[i] (parts i)) ∧
        bs = (List.ofFn parts).flatten := by
  induction n with
  | zero =>
    rw [Vector.ofFnM_zero]
    refine (Reads.pure #v[]).congr fun xs bs => ?_
    constructor
    · rintro ⟨-, rfl⟩
      exact ⟨fun _ => [], nofun, by simp⟩
    · rintro ⟨parts, -, rfl⟩
      exact ⟨by simp, by simp⟩
  | succ n ih =>
    -- The last entry is read last, so the strings are split off from the end.
    rw [Vector.ofFnM_succ]
    refine ((ih fun i => hf i.castSucc).bind fun xs =>
      (hf (Fin.last n)).map (f := fun x => xs.push x)).congr fun xs bs => ?_
    constructor
    · rintro ⟨front, u, v, ⟨parts, hparts, rfl⟩, ⟨x, hx, rfl⟩, rfl⟩
      refine ⟨Fin.snoc parts v, fun i => ?_, ?_⟩
      · cases i using Fin.lastCases with
        | last => simpa using hx
        | cast i => simpa [Vector.getElem_push_lt] using hparts i
      · rw [List.ofFn_succ_last]
        simp
    · rintro ⟨parts, hparts, rfl⟩
      refine ⟨xs.pop, (List.ofFn fun i => parts i.castSucc).flatten, parts (Fin.last n),
        ⟨fun i => parts i.castSucc, fun i => ?_, rfl⟩, ⟨xs.back, ?_, ?_⟩, ?_⟩
      · simpa using hparts i.castSucc
      · simpa [Vector.back] using hparts (Fin.last n)
      · simp
      · rw [List.ofFn_succ_last]
        simp

end Reads
end VertexPack
