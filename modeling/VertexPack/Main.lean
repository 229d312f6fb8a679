import VertexPack.CommandLine.Run

/-!
The program itself: the command line run on real files and streams.
-/
namespace VertexPack.CommandLine

def systemError : IO.Error → UInt32 × String
  | .alreadyExists _ n t | .otherError n t | .resourceBusy n t | .resourceVanished n t
  | .unsupportedOperation n t | .hardwareFault n t | .unsatisfiedConstraints n t
  | .illegalOperation n t | .protocolError n t | .timeExpired n t | .interrupted _ n t
  | .noFileOrDirectory _ n t | .invalidArgument _ n t | .permissionDenied _ n t
  | .resourceExhausted _ n t | .inappropriateType _ n t | .noSuchThing _ n t => (n, t)
  | .unexpectedEof => (5, "unexpected end of file")
  | .userError text => (5, text)

/-- What a system error amounts to; some of the numbers arrive with a minus sign. -/
def fileError (e : IO.Error) : FileError :=
  let (number, text) := systemError e
  match (if number < 0x80000000 then number else 0 - number).toNat with
  | 2 => .notFound
  | 20 => .notDirectory
  | 21 => .isDirectory
  | 36 => .nameTooLong
  | n => .other text n

def Access.ofProcess : Access IO where
  standardInput := do
    let input ← IO.getStdin
    let bytes ← input.readBinToEnd
    return bytes.toList
  readFile := fun path => do
    try return .ok (← IO.FS.readBinFile path).toList
    catch e => return .error (fileError e)
  writeFile := fun path bytes => do
    try
      IO.FS.writeBinFile path (ByteArray.mk bytes.toArray)
      return .ok ()
    catch e => return .error (fileError e)

end VertexPack.CommandLine

def main (args : List String) : IO UInt32 := do
  let setting ← IO.getEnv "RUST_LOG"
  let outcome ← VertexPack.CommandLine.run VertexPack.CommandLine.Access.ofProcess setting args
  (← IO.getStderr).putStr outcome.errors
  let output ← IO.getStdout
  output.write (ByteArray.mk outcome.output.toArray)
  output.flush
  return outcome.code.toUInt32
