/-!
Errors, from the inside out: of a cursor that reads or writes bytes, of the frame
around the blocks of a stream, and of encoding or decoding a stream. An inner
error that a caller can act on becomes an error of its own further out; the
others are kept as they are.
-/
namespace VertexPack

/-- Why a cursor operation was refused; the cursor is as it was before. -/
inductive CursorError where
  | overflow (requested available : Nat)
  | unexpectedEnd (requested available : Nat)
  /-- A patch addressed byte `offset` when `written` bytes had been written. -/
  | invalidOffset (offset written : Nat)
  deriving Repr, DecidableEq

namespace CursorError

def message : CursorError → String
  | overflow requested available =>
    s!"attempted to write {requested} bytes but only {available} bytes of capacity remain"
  | unexpectedEnd requested available =>
    s!"attempted to read {requested} bytes but only {available} bytes available"
  | invalidOffset offset written =>
    s!"offset {offset} is outside the {written} bytes written so far"

end CursorError

def vertexSizeText (size : Nat) : String :=
  s!"invalid vertex size {size}: must be 1..=256 and a multiple of 4"

def hexByteUpper (b : UInt8) : String :=
  String.ofList ((Nat.toDigits 16 (256 + b.toNat)).drop 1 |>.map Char.toUpper)

inductive FrameError where
  | invalidTag (found : UInt8)
  | unsupportedVersion (found : UInt8)
  | invalidVersion (version : UInt8)
  | invalidVertexSize (size : Nat)
  | boundOverflow (count size : Nat)
  | cursor (cause : CursorError)
  deriving Repr, DecidableEq

namespace FrameError

def message : FrameError → String
  | invalidTag found => s!"invalid format byte: 0x{hexByteUpper found}"
  | unsupportedVersion found => s!"unsupported stream version: {found.toNat}"
  | invalidVersion version => s!"version {version.toNat} does not fit in the format byte"
  | invalidVertexSize size => vertexSizeText size
  | boundOverflow count size =>
    s!"encoded size of {count} vertices of {size} bytes overflows usize"
  | cursor cause => s!"bytestream error: {cause.message}"

def causes : FrameError → List String
  | cursor cause => [cause.message]
  | _ => []

end FrameError

inductive StreamError where
  | frame (cause : FrameError)
  | cursor (cause : CursorError)
  | outputTooSmall (needed available : Nat)
  | invalidVertexSize (size : Nat)
  | sourceTooSmall (needed available : Nat)
  | invalidBlockLength (count max : Nat)
  | truncated (needed available : Nat)
  /-- What follows the last block does not have the length of a tail. -/
  | trailingData (expected found : Nat)
  deriving Repr, DecidableEq

namespace StreamError

def message : StreamError → String
  | frame cause => s!"wire error: {cause.message}"
  | cursor cause => s!"bytestream error: {cause.message}"
  | outputTooSmall needed available => s!"output too small: need {needed}, have {available}"
  | invalidVertexSize size => vertexSizeText size
  | sourceTooSmall needed available =>
    s!"source too small: need {needed} bytes, have {available}"
  | invalidBlockLength count max => s!"block of {count} vertices outside 1..={max}"
  | truncated needed available => s!"truncated stream: need {needed} bytes, have {available}"
  | trailingData expected found =>
    s!"expected {expected} tail bytes after the last block, found {found}"

def causes : StreamError → List String
  | frame cause => cause.message :: cause.causes
  | cursor cause => [cause.message]
  | _ => []

def isCapacityExhausted : StreamError → Bool
  | outputTooSmall .. => true
  | _ => false

def ofCursor : CursorError → StreamError
  | .overflow requested available => outputTooSmall requested available
  | .unexpectedEnd requested available => truncated requested available
  | .invalidOffset offset written => cursor (.invalidOffset offset written)

/-- A frame error, or the error that its cause or its size stands for. -/
def ofFrame : FrameError → StreamError
  | .cursor cause => ofCursor cause
  | .invalidVertexSize size => invalidVertexSize size
  | other => frame other

end StreamError

end VertexPack
