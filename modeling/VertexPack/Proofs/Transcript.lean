import VertexPack.Proofs.Appending
import Mathlib.Algebra.BigOperators.Fin

/-! The transcript of an encoding step: what it demands, writes and reports, in order. How far a
step gets depends on its transcript and on the room alone, so an observer changes nothing, and with
less room it hears the beginning of what it hears with more. -/
namespace VertexPack

inductive Mark where
  | demand (n : Nat)
  | advance (n : Nat)
  | report (event : Event)
  /-- Events that are reported if the observer wants them. -/
  | offer (events : List Event)

namespace Mark

def need : Mark → Nat
  | demand n | advance n => n
  | report _ | offer _ => 0

def width : Mark → Nat
  | advance n => n
  | demand _ | report _ | offer _ => 0

def events : Mark → List Event
  | report event => [event]
  | offer events => events
  | demand _ | advance _ => []

def hear {σ : Type} (obs : Observer σ) (observed : σ) : Mark → σ
  | report event => obs.record observed event
  | offer events => if obs.isEnabled observed then events.foldl obs.record observed else observed
  | demand _ | advance _ => observed

theorem width_le_need (m : Mark) : m.width ≤ m.need := by
  cases m with
  | advance n => exact Nat.le_refl n
  | demand _ | report _ | offer _ => exact Nat.zero_le _

end Mark

namespace Transcript
variable {σ : Type} {ms ms' : List Mark} {r r' : Nat}

def done : Nat → List Mark → List Mark
  | _, [] => []
  | r, m :: ms => if m.need ≤ r then m :: done (r - m.width) ms else []

/-- The first demand that is refused, and the room that was left. -/
def refusal : Nat → List Mark → Option (Nat × Nat)
  | _, [] => none
  | r, m :: ms => if m.need ≤ r then refusal (r - m.width) ms else some (m.need, r)

def width (ms : List Mark) : Nat := (ms.map Mark.width).sum

def events (ms : List Mark) : List Event := ms.flatMap Mark.events

def listen (obs : Observer σ) (observed : σ) (ms : List Mark) : σ :=
  ms.foldl (Mark.hear obs) observed

@[simp] theorem width_cons (m : Mark) (ms : List Mark) : width (m :: ms) = m.width + width ms :=
  List.sum_cons

@[simp] theorem width_append : width (ms ++ ms') = width ms + width ms' := by
  rw [width, List.map_append, List.sum_append, width, width]

@[simp] theorem events_cons (m : Mark) (ms : List Mark) :
    events (m :: ms) = m.events ++ events ms :=
  List.flatMap_cons

@[simp] theorem events_append : events (ms ++ ms') = events ms ++ events ms' :=
  List.flatMap_append

theorem listen_append (obs : Observer σ) (observed : σ) :
    listen obs observed (ms ++ ms') = listen obs (listen obs observed ms) ms' :=
  List.foldl_append

theorem listen_eq_foldl {obs : Observer σ} (h : ∀ observed, obs.isEnabled observed = true)
    (observed : σ) (ms : List Mark) :
    listen obs observed ms = (events ms).foldl obs.record observed := by
  induction ms generalizing observed with
  | nil => rfl
  | cons m ms ih =>
    have hm : m.hear obs observed = m.events.foldl obs.record observed := by
      cases m with
      | offer events => exact if_pos (h observed)
      | report _ | demand _ | advance _ => rfl
    rw [listen, List.foldl_cons, hm, ← listen, ih, events_cons, List.foldl_append]

theorem toList_listen_log (kept : Array Event) (ms : List Mark) :
    (listen Observer.log kept ms).toList = kept.toList ++ events ms := by
  have hfold (es : List Event) (kept : Array Event) :
      (es.foldl Array.push kept).toList = kept.toList ++ es := by
    induction es generalizing kept with
    | nil => rw [List.foldl_nil, List.append_nil]
    | cons e es ih => rw [List.foldl_cons, ih, Array.toList_push, List.append_assoc]; rfl
  rw [listen_eq_foldl fun _ => rfl]
  exact hfold _ _

theorem done_isPrefix (r : Nat) (ms : List Mark) : done r ms <+: ms := by
  induction ms generalizing r with
  | nil => exact List.prefix_rfl
  | cons m ms ih =>
    rw [done]
    split
    · exact (List.prefix_cons_inj m).2 (ih _)
    · exact List.nil_prefix

theorem done_mono (h : r ≤ r') (ms : List Mark) : done r ms <+: done r' ms := by
  induction ms generalizing r r' with
  | nil => exact List.prefix_rfl
  | cons m ms ih =>
    rw [done, done]
    by_cases hm : m.need ≤ r
    · rw [if_pos hm, if_pos (Nat.le_trans hm h), List.prefix_cons_inj]
      exact ih (Nat.sub_le_sub_right h _)
    · rw [if_neg hm]
      exact List.nil_prefix

theorem events_isPrefix (h : ms <+: ms') : events ms <+: events ms' := by
  obtain ⟨t, rfl⟩ := h
  rw [events_append]
  exact List.prefix_append _ _

theorem refusal_none_mono (h : r ≤ r') (hr : refusal r ms = none) : refusal r' ms = none := by
  induction ms generalizing r r' with
  | nil => rfl
  | cons m ms ih =>
    rw [refusal] at hr
    split at hr
    · rename_i hm
      rw [refusal, if_pos (Nat.le_trans hm h)]
      exact ih (Nat.sub_le_sub_right h _) hr
    · cases hr

theorem width_done_le (r : Nat) (ms : List Mark) : width (done r ms) ≤ r := by
  induction ms generalizing r with
  | nil => exact Nat.zero_le r
  | cons m ms ih =>
    rw [done]
    split
    · have hneed := m.width_le_need
      have hrest := ih (r - m.width)
      rw [width_cons]
      omega
    · exact Nat.zero_le r

theorem refusal_append (r : Nat) (ms ms' : List Mark) :
    refusal r (ms ++ ms') = (refusal r ms).or (refusal (r - width ms) ms') := by
  induction ms generalizing r with
  | nil => rfl
  | cons m ms ih =>
    rw [List.cons_append, refusal, refusal]
    split
    · rw [ih, width_cons, Nat.sub_sub]
    · rfl

theorem done_append_of_none (h : refusal r ms = none) :
    done r (ms ++ ms') = ms ++ done (r - width ms) ms' := by
  induction ms generalizing r with
  | nil => rfl
  | cons m ms ih =>
    rw [refusal] at h
    split at h
    · rw [List.cons_append, done, if_pos ‹_›, ih h, width_cons, Nat.sub_sub, List.cons_append]
    · cases h

theorem done_of_none (h : refusal r ms = none) : done r ms = ms := by
  have hnil : done r (ms ++ []) = ms ++ done (r - width ms) [] := done_append_of_none h
  rwa [done, List.append_nil] at hnil

theorem done_append_of_some {e : Nat × Nat} (h : refusal r ms = some e) :
    done r (ms ++ ms') = done r ms := by
  induction ms generalizing r with
  | nil => cases h
  | cons m ms ih =>
    rw [refusal] at h
    rw [List.cons_append, done, done]
    split at h
    · rw [if_pos ‹_›, if_pos ‹_›, ih h]
    · rw [if_neg ‹_›, if_neg ‹_›]

end Transcript

open Transcript

/-- From session `s` on, a step does what its transcript says. -/
structure FollowsAt {σ : Type} (obs : Observer σ) (s : Session σ) (ms : List Mark)
    (step : Encoding σ Unit) : Prop where
  ok : refusal s.writer.remaining ms = none → ∃ s', step s = .ok () s' ∧
    s'.writer.remaining + width ms = s.writer.remaining ∧
    s'.writer.position = s.writer.position + width ms ∧
    s'.observed = listen obs s.observed ms
  refused : ∀ needed available : Nat, refusal s.writer.remaining ms = some (needed, available) →
    ∃ s', step s = .error (.outputTooSmall needed available) s' ∧
      s'.observed = listen obs s.observed (done s.writer.remaining ms)

def Follows {σ : Type} (obs : Observer σ) (ms : List Mark) (step : Encoding σ Unit) : Prop :=
  ∀ s, FollowsAt obs s ms step

namespace FollowsAt
variable {σ : Type} {obs : Observer σ} {s : Session σ} {ms ms' : List Mark}
  {step next : Encoding σ Unit}

theorem single {m : Mark}
    (hfits : m.need ≤ s.writer.remaining → ∃ s', step s = .ok () s' ∧
      s'.writer.remaining + m.width = s.writer.remaining ∧
      s'.writer.position = s.writer.position + m.width ∧ s'.observed = m.hear obs s.observed)
    (hfull : s.writer.remaining < m.need → ∃ s',
      step s = .error (.outputTooSmall m.need s.writer.remaining) s' ∧ s'.observed = s.observed) :
    FollowsAt obs s [m] step where
  ok h := by
    rw [refusal] at h
    split at h
    · exact hfits ‹_›
    · cases h
  refused needed available h := by
    rw [refusal] at h
    split at h
    · cases h
    · rename_i hlt
      cases h
      obtain ⟨s', hs', hobserved⟩ := hfull (Nat.lt_of_not_le hlt)
      rw [done, if_neg hlt]
      exact ⟨s', hs', hobserved⟩

theorem bind (h : FollowsAt obs s ms step)
    (h' : ∀ s', step s = .ok () s' → s'.writer.position = s.writer.position + width ms →
      FollowsAt obs s' ms' next) : FollowsAt obs s (ms ++ ms') (step >>= fun _ => next) where
  ok hs := by
    rw [refusal_append, Option.or_eq_none_iff] at hs
    obtain ⟨s₁, hs₁, hremaining, hposition, hobserved⟩ := h.ok hs.1
    have hroom : s.writer.remaining - width ms = s₁.writer.remaining := by omega
    obtain ⟨s₂, hs₂, hremaining', hposition', hobserved'⟩ := (h' s₁ hs₁ hposition).ok (hroom ▸ hs.2)
    refine ⟨s₂, (bind_of_ok hs₁).trans hs₂, ?_, ?_, ?_⟩
    · rw [width_append]
      omega
    · rw [width_append]
      omega
    · rw [hobserved', hobserved, listen_append]
  refused needed available hs := by
    rw [refusal_append] at hs
    cases hfirst : refusal s.writer.remaining ms with
    | some e =>
      rw [hfirst, Option.some_or] at hs
      obtain ⟨s', hs', hobserved⟩ := h.refused needed available (hfirst.trans hs)
      exact ⟨s', bind_of_error hs', by rw [hobserved, done_append_of_some hfirst]⟩
    | none =>
      rw [hfirst, Option.none_or] at hs
      obtain ⟨s₁, hs₁, hremaining, hposition, hobserved⟩ := h.ok hfirst
      have hroom : s.writer.remaining - width ms = s₁.writer.remaining := by omega
      rw [hroom] at hs
      obtain ⟨s', hs', hobserved'⟩ := (h' s₁ hs₁ hposition).refused needed available hs
      refine ⟨s', (bind_of_ok hs₁).trans hs', ?_⟩
      rw [hobserved', hobserved, ← listen_append, done_append_of_none hfirst, hroom]

theorem congr (hrun : step s = next s) (h : FollowsAt obs s ms next) :
    FollowsAt obs s ms step where
  ok hs := hrun ▸ h.ok hs
  refused needed available hs := hrun ▸ h.refused needed available hs

theorem step_of_ok {s' : Session σ} (hms : refusal s.writer.remaining ms = none)
    (hrun : step s = next s') (hremaining : s'.writer.remaining + width ms = s.writer.remaining)
    (hposition : s'.writer.position = s.writer.position + width ms)
    (hobserved : s'.observed = listen obs s.observed ms) (h : FollowsAt obs s' ms' next) :
    FollowsAt obs s (ms ++ ms') step := by
  have hfirst : FollowsAt obs s ms (fun _ => .ok () s') :=
    { ok := fun _ => ⟨s', rfl, hremaining, hposition, hobserved⟩
      refused := fun needed available hs => by
        rw [hms] at hs
        cases hs }
  have hboth : FollowsAt obs s (ms ++ ms') ((fun _ => .ok () s') >>= fun _ => next) := by
    refine hfirst.bind ?_
    rintro _ ⟨⟩ _
    exact h
  exact congr hrun hboth

theorem of_lt {m : Mark} {s' : Session σ} (hlt : s.writer.remaining < m.need)
    (hrun : step s = .error (.outputTooSmall m.need s.writer.remaining) s')
    (hobserved : s'.observed = s.observed) : FollowsAt obs s (m :: ms) step where
  ok hs := by
    rw [refusal, if_neg (Nat.not_le.2 hlt)] at hs
    cases hs
  refused needed available hs := by
    rw [refusal, if_neg (Nat.not_le.2 hlt)] at hs
    cases hs
    rw [done, if_neg (Nat.not_le.2 hlt)]
    exact ⟨s', hrun, hobserved⟩

end FollowsAt

namespace Follows
variable {σ : Type} {obs : Observer σ} {ms ms' : List Mark} {step next : Encoding σ Unit}

theorem pure : Follows obs [] (pure ()) := fun _ =>
  { ok := fun _ => ⟨_, rfl, rfl, rfl, rfl⟩
    refused := fun _ _ h => nomatch h }

theorem note (notice : Notice) : Follows obs [] (Encoding.note notice) := fun _ =>
  { ok := fun _ => ⟨_, rfl, rfl, rfl, rfl⟩
    refused := fun _ _ h => nomatch h }

theorem report (event : Event) : Follows obs [.report event] (Encoding.report obs event) :=
  fun _ => FollowsAt.single (fun _ => ⟨_, rfl, rfl, rfl, rfl⟩) fun h => absurd h (Nat.not_lt_zero _)

theorem bind (h : Follows obs ms step) (h' : Follows obs ms' next) :
    Follows obs (ms ++ ms') (step >>= fun _ => next) := fun s =>
  (h s).bind fun s' _ _ => h' s'

theorem forM {ι : Type} {f : ι → Encoding σ Unit} {marks : ι → List Mark}
    (h : ∀ i, Follows obs (marks i) (f i)) (l : List ι) :
    Follows obs (l.flatMap marks) (l.forM f) := by
  induction l with
  | nil => exact pure
  | cons i l ih =>
    rw [List.flatMap_cons]
    exact (h i).bind ih

theorem noting (notice : StreamError → Notice) (h : Follows obs ms step) :
    Follows obs ms (Encoding.noting notice step) := fun s =>
  { ok := fun hs => by
      obtain ⟨s', hs', hrest⟩ := (h s).ok hs
      exact ⟨s', by rw [Encoding.noting, hs'], hrest⟩
    refused := fun needed available hs => by
      obtain ⟨s', hs', hobserved⟩ := (h s).refused needed available hs
      exact ⟨{ s' with notices := s'.notices ++ [notice (.outputTooSmall needed available)] },
        by rw [Encoding.noting, hs'], hobserved⟩ }

theorem ensure (n : Nat) : Follows obs [.demand n] (Encoding.write (Writer.ensure n)) := fun _ =>
  FollowsAt.single
    (fun h => ⟨_, Encoding.writing_of_ok _ (Writer.ensure_of_le h), rfl, rfl, rfl⟩)
    fun h => ⟨_, Encoding.writing_of_error _ (Writer.ensure_of_lt h), rfl⟩

theorem writing {ε : Type} {convert : ε → StreamError} {write : Writing ε Unit}
    {bytes : List UInt8}
    (hfits : ∀ w, bytes.length ≤ w.remaining → write w = .ok () (w.push bytes))
    (hfull : ∀ w, w.remaining < bytes.length → ∃ e, write w = .error e w ∧
      convert e = .outputTooSmall bytes.length w.remaining) :
    Follows obs [.advance bytes.length] (Encoding.writing convert write) := by
  refine fun s => FollowsAt.single (fun h => ?_) fun h => ?_
  · refine ⟨_, Encoding.writing_of_ok convert (hfits s.writer h), ?_, ?_, rfl⟩
    · rw [Writer.remaining_push]
      exact Nat.sub_add_cancel h
    · rw [Writer.position_push]
      rfl
  · obtain ⟨e, he, hconvert⟩ := hfull s.writer h
    have hw := Encoding.writing_of_error convert he
    rw [hconvert] at hw
    exact ⟨_, hw, rfl⟩

theorem observed_of_ok {s s' : Session σ} (h : Follows obs ms step) (hrun : step s = .ok () s') :
    s'.observed = listen obs s.observed ms := by
  cases hroom : refusal s.writer.remaining ms with
  | none =>
    obtain ⟨t, ht, -, -, hobserved⟩ := (h s).ok hroom
    cases hrun.symm.trans ht
    exact hobserved
  | some e =>
    obtain ⟨t, ht, -⟩ := (h s).refused e.1 e.2 hroom
    cases hrun.symm.trans ht

end Follows
end VertexPack
