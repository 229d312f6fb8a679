import VertexPack.Layout
import VertexPack.Notice

/-!
What an encoder reports while it works, who listens, and the session that it works in:
the destination, the observer's state and the log. The encoder never reads the observer's
state, except to ask whether the costlier reports are wanted. A step that fails leaves
whatever it had written, reported and noted.
-/
namespace VertexPack

inductive Event where
  | header (channel bytes : Nat)
  | group (channel : Nat) (width : Width) (bytes : Nat)
  /-- So many values of a group agree, in the given bits, with the value before the group. -/
  | consistency (channel : Nat) (shared : UInt8) (values : Nat)
  | channel (channel bytes : Nat)
  | stream (count total : Nat)
  deriving Repr, DecidableEq

structure Observer (σ : Type) where
  isEnabled : σ → Bool := fun _ => true
  record : σ → Event → σ

def Observer.log : Observer (Array Event) where
  record := Array.push

def Observer.silent : Observer Unit where
  isEnabled := fun _ => false
  record := fun s _ => s

/-- The state of an encoder whose observer has state `σ`; the log has its oldest entry first. -/
structure Session (σ : Type) where
  writer : Writer
  observed : σ
  notices : List Notice

abbrev Encoding (σ : Type) := EStateM StreamError (Session σ)

def Session.start {σ : Type} (destination : List UInt8) (observed : σ) : Session σ :=
  ⟨.ofDestination destination, observed, []⟩

namespace Encoding
variable {σ ε α : Type}

def writing (convert : ε → StreamError) (step : Writing ε α) : Encoding σ α := fun s =>
  match step s.writer with
  | .ok a w => .ok a { s with writer := w }
  | .error e w => .error (convert e) { s with writer := w }

def write (step : Writing CursorError α) : Encoding σ α := writing .ofCursor step

def ofExcept : Except StreamError α → Encoding σ α
  | .ok a => pure a
  | .error e => throw e

def position : Encoding σ Nat := do return (← get).writer.position

def report (obs : Observer σ) (event : Event) : Encoding σ Unit :=
  modify fun s => { s with observed := obs.record s.observed event }

def note (notice : Notice) : Encoding σ Unit :=
  modify fun s => { s with notices := s.notices ++ [notice] }

def noting (notice : StreamError → Notice) (step : Encoding σ α) : Encoding σ α := fun s =>
  match step s with
  | .ok a s' => .ok a s'
  | .error e s' => .error e { s' with notices := s'.notices ++ [notice e] }

end Encoding
end VertexPack
