import VertexPack.Bytes
import VertexPack.Notice

/-!
Failures of whole tasks: an error, and what was being done when it arose. The
texts of a failure are a chain that leads from the outermost to the first cause.
-/
namespace VertexPack

inductive Task where
  | encodeBuffer | encodePlanes | decodeBuffer | decodePlanes
  deriving Repr, DecidableEq

def Task.message : Task → String
  | .encodeBuffer => "encode vertex buffer"
  | .encodePlanes => "encode bitplane"
  | .decodeBuffer => "decode vertex buffer"
  | .decodePlanes => "decode bitplane"

inductive FileError where
  | notFound
  | notDirectory
  | isDirectory
  | nameTooLong
  | other (text : String) (number : Nat)
  deriving Repr, DecidableEq

def FileError.message : FileError → String
  | .notFound => "No such file or directory (os error 2)"
  | .notDirectory => "Not a directory (os error 20)"
  | .isDirectory => "Is a directory (os error 21)"
  | .nameTooLong => "File name too long (os error 36)"
  | .other text number => s!"{text} (os error {number})"

inductive Failure where
  | strideZero
  | keptOutside (kept stride : Nat)
  | countOverflow
  | unallocatable (bytes : Nat)
  | capacity (cause : StreamError)
  | during (task : Task) (cause : StreamError)
  | input (path : String) (cause : FileError)
  | output (path : String) (cause : FileError)
  deriving Repr, DecidableEq

namespace Failure

def chain : Failure → List String
  | strideZero => ["stride must be positive"]
  | keptOutside kept stride => [s!"prefix {kept} outside 1..={stride}"]
  | countOverflow => ["record count overflows the address space"]
  | unallocatable _ => ["capacity overflow"]
  | capacity cause => cause.message :: cause.causes
  | during task cause => task.message :: cause.message :: cause.causes
  | input path cause => [s!"read input {path}", cause.message]
  | output path cause => [s!"write output {path}", cause.message]

def streamError : Failure → Option StreamError
  | capacity cause | during _ cause => some cause
  | _ => none

def message (f : Failure) : String := ": ".intercalate f.chain

/-- The chain as it is shown at the end of a run: the outermost text, then the causes, numbered
if there is more than one. -/
def display (f : Failure) : String :=
  match f.chain with
  | [] => ""
  | [text] => text ++ "\n"
  | [text, cause] => text ++ "\n\nCaused by:\n    " ++ cause ++ "\n"
  | text :: causes =>
    text ++ "\n\nCaused by:\n" ++
      String.join (causes.mapIdx fun i cause => s!"    {i}: {cause}\n")

end Failure

/-- Steps of a task; what was noted before a failure stays noted. -/
abbrev Work := EStateM Failure (List Notice)

namespace Work

variable {α : Type}

def note (notices : List Notice) : Work Unit := modify (· ++ notices)

/-- The largest number of bytes that can be allocated at once: half of the addresses. -/
def maxAllocation : Nat := Capacity.limit / 2 - 1

def allocate (bytes : Nat) : Work Unit :=
  if bytes ≤ maxAllocation then pure () else throw (.unallocatable bytes)

def ofExcept (failure : StreamError → Failure) : Except StreamError α → Work α
  | .ok a => pure a
  | .error e => throw (failure e)

end Work
end VertexPack
