import VertexPack.Error

/-!
Notices are the entries of the log: what was done, how serious it is, and where
it was done.
-/
namespace VertexPack

inductive Level where
  | error | warn | info | debug | trace
  deriving Repr, DecidableEq

namespace Level

/-- The rank of a level; the most serious has the lowest. -/
def rank : Level → Nat
  | error => 0
  | warn => 1
  | info => 2
  | debug => 3
  | trace => 4

def name : Level → String
  | error => "ERROR"
  | warn => "WARN"
  | info => "INFO"
  | debug => "DEBUG"
  | trace => "TRACE"

end Level

inductive Notice where
  | blockStarted (index count offset : Nat)
  | blockFailed (index : Nat) (cause : StreamError)
  | encoded (count size total : Nat) (version : UInt8)
  | decoded (count size total : Nat) (version : UInt8)
  | planesEncoded (count size total : Nat)
  | partialRecord (extra count stride : Nat)
  | recordsEncoded (count bytes total : Nat)
  deriving Repr, DecidableEq

namespace Notice

def level : Notice → Level
  | blockStarted .. => .trace
  | blockFailed .. | encoded .. | decoded .. | planesEncoded .. => .debug
  | partialRecord .. => .warn
  | recordsEncoded .. => .info

def target : Notice → String
  | blockStarted .. | blockFailed .. | encoded .. | decoded .. => "codec::stream"
  | planesEncoded .. => "codec::bitplane"
  | partialRecord .. | recordsEncoded .. => "vtxc_tools"

def message : Notice → String
  | blockStarted index count offset => s!"block {index}: {count} vertices at offset {offset}"
  | blockFailed index cause => s!"block {index} failed: {cause.message}"
  | encoded count size total version =>
    s!"encoded {count} vertices of {size} bytes into {total} bytes (version {version.toNat})"
  | decoded count size total version =>
    s!"decoded {count} vertices of {size} bytes from {total} bytes (version {version.toNat})"
  | planesEncoded count size total =>
    s!"bitplane encoded {count} vertices of {size} bytes into {total} bytes"
  | partialRecord extra count stride =>
    s!"ignoring {extra} trailing bytes after {count} records of {stride} bytes"
  | recordsEncoded count bytes total =>
    s!"encoded {count} records ({bytes} bytes) into {total} bytes"

def upTo (level : Level) (notices : List Notice) : List Notice :=
  notices.filter (·.level.rank ≤ level.rank)

end Notice
end VertexPack
