import VertexPack.Proofs.Coders
import VertexPack.Proofs.Cost
import VertexPack.Proofs.Splitting

/-! The channels of a block can share one array for their deltas, and all groups one buffer in which
the widths are tried. Neither is ever cleared: a channel covers the deltas of the one before it, and
nothing is ever written behind them. -/
namespace VertexPack

section Overwrite
variable {α : Type} {n : Nat}

def overwrite (xs : List α) (v : Vector α n) : Vector α n :=
  Vector.ofFn fun i => xs.getD i (v.get i)

theorem getD_overwrite (xs : List α) (v : Vector α n) (d : α) {t : Nat} (ht : t < n) :
    (overwrite xs v).toList.getD t d = xs.getD t (v.get ⟨t, ht⟩) := by
  rw [List.getD_eq_getElem _ _ (by simpa using ht)]
  simp [overwrite]

theorem take_overwrite {xs : List α} (h : xs.length ≤ n) (v : Vector α n) :
    (overwrite xs v).toList.take xs.length = xs := by
  apply List.ext_getElem
  · rw [List.length_take, Vector.length_toList, Nat.min_eq_left h]
  · intro t ht ht'
    have hentry := getD_overwrite xs v xs[t] (Nat.lt_of_lt_of_le ht' h)
    rw [List.getD_eq_getElem _ _ (by rw [Vector.length_toList]; omega),
      List.getD_eq_getElem _ _ ht'] at hentry
    rw [List.getElem_take, hentry]

end Overwrite

/-- What the channels of a block share. -/
structure Workspace where
  deltas : Vector UInt8 Layout.maxBlockLength
  trial : Vector UInt8 Layout.headroom

namespace Workspace

def groups (m : Nat) (w : Workspace) : List Group :=
  (List.range m).map fun j => Vector.ofFn fun i : Fin 16 => w.deltas.toList.getD (16 * j + i) 0

/-- Behind the first `n` deltas the array is as it was in the beginning. -/
def Padded (n : Nat) (w : Workspace) : Prop :=
  ∀ i : Fin Layout.maxBlockLength, n ≤ i → w.deltas.get i = 0

def putDeltas (ds : List UInt8) (w : Workspace) : Workspace :=
  { w with deltas := overwrite ds w.deltas }

def putTrial (bs : List UInt8) (w : Workspace) : Workspace :=
  { w with trial := overwrite bs w.trial }

def empty : Workspace := ⟨Vector.replicate _ 0, Vector.replicate _ 0⟩

variable {n : Nat} {w : Workspace} {ds : List UInt8}

theorem empty_padded (n : Nat) : empty.Padded n := fun i _ => by
  rw [get_eq_getElem]
  exact Vector.getElem_replicate _

theorem Padded.getD_eq (h : w.Padded n) (hds : ds.length = n) (hmax : n ≤ Layout.maxBlockLength)
    (t : Nat) : (w.putDeltas ds).deltas.toList.getD t 0 = ds.getD t 0 := by
  by_cases ht : t < Layout.maxBlockLength
  · rw [putDeltas, getD_overwrite _ _ _ ht]
    by_cases htn : t < n
    · rw [List.getD_eq_getElem _ _ (hds ▸ htn), List.getD_eq_getElem _ _ (hds ▸ htn)]
    · rw [h ⟨t, ht⟩ (Nat.le_of_not_lt htn)]
  · rw [List.getD_eq_default _ _ (by rw [Vector.length_toList]; omega),
      List.getD_eq_default _ _ (by omega)]

theorem Padded.putDeltas (h : w.Padded n) (hds : ds.length = n) : (w.putDeltas ds).Padded n := by
  intro i hi
  simpa [Workspace.putDeltas, overwrite, get_eq_getElem, List.getElem?_eq_none (hds ▸ hi)]
    using h i hi

theorem Padded.putTrial (h : w.Padded n) (bs : List UInt8) : (w.putTrial bs).Padded n := by
  intro i hi
  rw [Workspace.putTrial]
  exact h i hi

theorem Padded.groups_eq (h : w.Padded n) (hds : ds.length = n)
    (hmax : n ≤ Layout.maxBlockLength) :
    (w.putDeltas ds).groups (Layout.groupCount n) = Group.split ds := by
  rw [groups, Group.split_eq_map, hds]
  simp only [h.getD_eq hds hmax]

end Workspace

abbrev Sharing (σ : Type) := Keeping (Session σ) Workspace

namespace Sharing
open Keeping
variable {σ : Type}

def tryWidth (g : Group) (w : Width) : Sharing σ (Option Nat) := do
  match g.pack? w with
  | some bs =>
    change (Workspace.putTrial bs)
    pure (some bs.length)
  | none => pure none

def pack? (g : Group) (w : Width) : Sharing σ (Option (List UInt8)) := do
  match ← tryWidth g w with
  | some n => some <$> look fun b => b.trial.toList.take n
  | none => pure none

def better (g : Group) (best : Width × Nat) (w : Width) : Sharing σ (Width × Nat) := do
  match ← tryWidth g w with
  | some n => pure (if n < best.2 then (w, n) else best)
  | none => pure best

def select (g : Group) : Sharing σ (Width × Nat) :=
  [Width.one, .two, .four].foldlM (better g) (.eight, Layout.groupSize)

def encodeFrom (obs : Observer σ) (channel header : Nat) : Nat → List Group → Sharing σ Unit
  | _, [] => pure ()
  | i, g :: gs => do
    step (Encoding.write (Writer.ensure Layout.headroom))
    let (width, size) ← select g
    step (Encoding.write (Writer.orAt (header + Width.slot i) (width.slotBits i)))
    match ← pack? g width with
    | some bs => step (Encoding.write (Writer.append bs))
    | none => pure ()
    step (Encoding.report obs (.group channel width size))
    encodeFrom obs channel header (i + 1) gs

def encodeGroups (obs : Observer σ) (channel : Nat) (groups : List Group) : Sharing σ Unit := do
  let size := Width.headerSize groups.length
  let header ← step (Encoding.write (Writer.reserve size))
  encodeFrom obs channel header 0 groups
  step (Encoding.report obs (.header channel size))

def split (ds : List UInt8) : Sharing σ (List Group) := do
  change (Workspace.putDeltas ds)
  look (Workspace.groups (Layout.groupCount ds.length))

def encode (obs : Observer σ) (channel : Nat) (p : UInt8) (column : List UInt8) :
    Sharing σ Unit := do
  let start ← step Encoding.position
  let groups ← split (Delta.encode p column)
  if obs.isEnabled (← step get).observed then
    (Channel.consistency p (chunks Layout.groupSize column)).forM fun run =>
      step (Encoding.report obs (.consistency channel run.1 run.2))
  encodeGroups obs channel groups
  let stop ← step Encoding.position
  step (Encoding.report obs (.channel channel (stop - start)))

def encodeBlock {size : Nat} (obs : Observer σ) (p : Record size) (records : List (Record size)) :
    Sharing σ Unit :=
  (List.finRange size).forM fun k => encode obs k (p.get k) (Record.column k records)

section
variable {n : Nat}

theorem tryWidth_run (g : Group) (w : Width) (s : Session σ) (b : Workspace)
    (hb : b.Padded n) : ∃ b', b'.Padded n ∧
      tryWidth g w ⟨s, b⟩ = .ok ((g.pack? w).map List.length) ⟨s, b'⟩ ∧
      ∀ bs, g.pack? w = some bs → b'.trial.toList.take bs.length = bs := by
  rw [tryWidth]
  cases h : g.pack? w with
  | none => exact ⟨b, hb, rfl, nofun⟩
  | some bs =>
    refine ⟨b.putTrial bs, hb.putTrial bs, rfl, ?_⟩
    rintro _ ⟨⟩
    exact take_overwrite (Group.length_le_of_pack? h) b.trial

theorem tryWidth_simulates (g : Group) (w : Width) :
    Simulates (Workspace.Padded n) (tryWidth g w : Sharing σ _)
      (pure ((g.pack? w).map List.length)) := by
  intro s b hb
  obtain ⟨b', hb', hrun, -⟩ := tryWidth_run g w s b hb
  exact ⟨b', hb', hrun⟩

theorem pack?_simulates (g : Group) (w : Width) :
    Simulates (Workspace.Padded n) (pack? g w : Sharing σ _) (pure (g.pack? w)) := by
  intro s b hb
  obtain ⟨b', hb', hrun, hread⟩ := tryWidth_run g w s b hb
  refine ⟨b', hb', (bind_of_ok hrun).trans ?_⟩
  cases h : g.pack? w with
  | none => rfl
  | some bs => exact congrArg (fun xs => EStateM.Result.ok (some xs) _) (hread bs h)

theorem better_simulates (g : Group) (best : Width × Nat) (w : Width) :
    Simulates (Workspace.Padded n) (better g best w : Sharing σ _) (pure (g.better best w)) := by
  refine (tryWidth_simulates g w).bind_of_pure ?_
  rw [Group.better]
  cases g.pack? w with
  | none => exact Simulates.pure best
  | some bs => exact Simulates.pure _

theorem select_simulates (g : Group) :
    Simulates (Workspace.Padded n) (select g : Sharing σ _) (pure g.select) :=
  Simulates.foldlM (better_simulates g) _ _

theorem encodeFrom_simulates (obs : Observer σ) (channel header i : Nat) (groups : List Group) :
    Simulates (Workspace.Padded n) (encodeFrom obs channel header i groups)
      (Channel.encodeFrom obs channel header i groups) := by
  induction groups generalizing i with
  | nil => exact Simulates.pure ()
  | cons g gs ih =>
    have hselect := select_simulates (σ := σ) (n := n) g
    rw [encodeFrom, Channel.encodeFrom]
    generalize g.select = best at hselect ⊢
    obtain ⟨w, size⟩ := best
    refine (Simulates.step _).bind fun _ => hselect.bind_of_pure ?_
    refine (Simulates.step _).bind fun _ => (pack?_simulates g w).bind_of_pure ?_
    dsimp only
    cases g.pack? w with
    | none => exact (Simulates.step _).bind fun _ => ih (i + 1)
    | some bs =>
      exact (Simulates.step _).bind fun _ => (Simulates.step _).bind fun _ => ih (i + 1)

theorem encodeGroups_simulates (obs : Observer σ) (channel : Nat) (groups : List Group) :
    Simulates (Workspace.Padded n) (encodeGroups obs channel groups)
      (Channel.encodeGroups obs channel groups) :=
  (Simulates.step _).bind fun header =>
    (encodeFrom_simulates obs channel header 0 groups).bind fun _ => Simulates.step _

theorem split_simulates {ds : List UInt8} (hds : ds.length = n)
    (hmax : n ≤ Layout.maxBlockLength) :
    Simulates (Workspace.Padded n) (split ds : Sharing σ _) (pure (Group.split ds)) := by
  intro s b hb
  refine ⟨b.putDeltas ds, hb.putDeltas hds, ?_⟩
  rw [← hb.groups_eq hds hmax, ← hds]
  rfl

theorem encode_simulates (obs : Observer σ) (channel : Nat) (p : UInt8) {column : List UInt8}
    (hlen : column.length = n) (hmax : n ≤ Layout.maxBlockLength) :
    Simulates (Workspace.Padded n) (encode obs channel p column)
      (Channel.encode obs channel p column) := by
  have hds : (Delta.encode p column).length = n := (Delta.encode_length p column).trans hlen
  have hrest (start : Nat) := (encodeGroups_simulates (n := n) obs channel
    (Group.split (Delta.encode p column))).bind fun _ => (Simulates.step Encoding.position).bind
      fun stop => Simulates.step (Encoding.report obs (.channel channel (stop - start)))
  rw [encode, Channel.encode]
  refine (Simulates.step _).bind fun start => (split_simulates hds hmax).bind_of_pure ?_
  refine (Simulates.step _).bind fun s => ?_
  dsimp only
  split
  · exact (Simulates.forM _ fun _ _ => Simulates.step _).bind fun _ => hrest start
  · exact hrest start

/-- Sharing a workspace makes no difference to a block. -/
theorem encodeBlock_simulates {size : Nat} (obs : Observer σ) (p : Record size)
    {records : List (Record size)} (hlen : records.length = n)
    (hmax : n ≤ Layout.maxBlockLength) :
    Simulates (Workspace.Padded n) (encodeBlock obs p records) (Block.encode obs p records) :=
  Simulates.forM _ fun k _ =>
    encode_simulates obs k (p.get k) ((Record.column_length k records).trans hlen) hmax

end
end Sharing

def Predictor.encodeBlockShared {σ : Type} (p : Predictor) (obs : Observer σ)
    (block : List UInt8) : Encoding σ Predictor := do
  let n ← Encoding.ofExcept (Block.count block.length p.size)
  let records := Record.split p.size n block
  Keeping.alone Workspace.empty (Sharing.encodeBlock obs p.record records)
  pure (p.advance records)

theorem Predictor.encodeBlockShared_eq {σ : Type} (p : Predictor) (obs : Observer σ)
    (block : List UInt8) : p.encodeBlockShared obs block = p.encodeBlock obs block := by
  rw [encodeBlockShared, encodeBlock]
  cases hcount : Block.count block.length p.size with
  | error e => rfl
  | ok n =>
    have hlen : (Record.split p.size n block).length = n := Record.split_length
    have hshared := (Sharing.encodeBlock_simulates obs p.record hlen
      (Block.of_count_eq_ok hcount).2.1).alone_eq (Workspace.empty_padded n)
    exact congrArg (· >>= fun _ => pure (p.advance (Record.split p.size n block))) hshared

end VertexPack
