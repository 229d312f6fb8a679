import VertexPack.CommandLine.Arguments
import VertexPack.CommandLine.Directory
import VertexPack.Report

/-!
Running a command: from the bytes of its input to the bytes of its output, the
log, and the exit code.
-/
namespace VertexPack.CommandLine

def programVersion : String := "vtxc-tools 0.3.0"

def usage : String :=
  "Usage: vtxc-tools [-v|--verbose] COMMAND\n\n"
    ++ "Commands:\n"
    ++ "  encode --stride N [--format v1|bitplane] [--version V] [--prefix N] [-o PATH] [INPUT]\n"
    ++ "  decode --stride N --count N [--format v1|bitplane] [-o PATH] [INPUT]\n"
    ++ "  stats --stride N [--prefix N] [--json] [INPUT]\n"

structure Access (m : Type → Type) where
  standardInput : m (List UInt8)
  readFile : String → m (Except FileError (List UInt8))
  writeFile : String → List UInt8 → m (Except FileError Unit)

structure Outcome where
  code : Nat
  output : List UInt8
  /-- What is printed on the side: the log, then the error. -/
  errors : String

def loadRecords (input : List UInt8) (stride : Nat) (kept : Option Nat) : Work RecordSet := do
  let set ← RecordSet.ofBytes input stride
  match kept with
  | none => pure set
  | some kept =>
    match set.project kept with
    | .ok set => pure set
    | .error e => throw e

def Command.perform (command : Command) (input : List UInt8) : Work (List UInt8) := do
  match command with
  | .encode stride format version kept _ _ =>
    let set ← loadRecords input stride kept
    let stream ← set.encode format version
    Work.note [.recordsEncoded set.count set.data.length stream.length]
    pure stream
  | .decode stride count format _ _ => RecordSet.decode input stride count format
  | .stats stride kept json _ =>
    let set ← loadRecords input stride kept
    let report ← Report.ofRecords set FormatByte.defaultVersion
    let text := if json then report.json ++ "\n" else report.text
    pure text.toUTF8.toList

def logLine (notice : Notice) : String :=
  let level := notice.level.name
  let spaces := String.ofList (List.replicate (5 - level.length) ' ')
  s!"[{level}{spaces} {notice.target}] {notice.message}\n"

def logText (level : Option Level) (notices : List Notice) : String :=
  match level with
  | none => ""
  | some level => String.join ((Notice.upTo level notices).map logLine)

def Outcome.ofResult (level : Option Level) (notices : List Notice)
    (result : Except Failure (List UInt8)) : Outcome :=
  let log := logText level notices
  match result with
  | .ok output => ⟨0, output, log⟩
  | .error (.unallocatable bytes) => ⟨101, [], log ++ (Failure.unallocatable bytes).display⟩
  | .error failure => ⟨1, [], log ++ "Error: " ++ failure.display⟩

def Command.run {m : Type → Type} [Monad m] (command : Command) (access : Access m)
    (level : Option Level) : m Outcome := do
  let input ← match command.input with
    | none => .ok <$> access.standardInput
    | some path => (Except.mapError (.input path)) <$> access.readFile path
  match input with
  | .error failure => return .ofResult level [] (.error failure)
  | .ok bytes =>
    match command.perform bytes [] with
    | .error failure notices => return .ofResult level notices (.error failure)
    | .ok output notices =>
      match command.output with
      | none => return .ofResult level notices (.ok output)
      | some path =>
        match ← access.writeFile path output with
        | .ok () => return .ofResult level notices (.ok [])
        | .error e => return .ofResult level notices (.error (.output path e))

/-- A log level by its name; `off` is no level. -/
def level? (text : String) : Option (Option Level) :=
  match text.toLower with
  | "off" => some none
  | "error" => some (some .error)
  | "warn" => some (some .warn)
  | "info" => some (some .info)
  | "debug" => some (some .debug)
  | "trace" => some (some .trace)
  | _ => none

def chooseLevel (setting : Option String) (verbose : Bool) : Option Level :=
  (setting.bind level?).getD (if verbose then some .debug else some .warn)

def run {m : Type → Type} [Monad m] (access : Access m) (setting : Option String)
    (args : List String) : m Outcome :=
  match Invocation.ofArguments args with
  | .error .version => pure ⟨0, (programVersion ++ "\n").toUTF8.toList, ""⟩
  | .error .help => pure ⟨0, usage.toUTF8.toList, ""⟩
  | .error (.usage cause) => pure ⟨2, [], "error: " ++ cause.message ++ "\n\n" ++ usage⟩
  | .ok invocation =>
    invocation.command.run access (chooseLevel setting invocation.verbose)

def Access.ofDirectory (input : List UInt8) : Access (StateM Directory) where
  standardInput := pure input
  readFile := fun path => do return (← get).read path
  writeFile := fun path bytes => do
    match (← get).write path bytes with
    | .ok d => set d; return .ok ()
    | .error e => return .error e

def runIn (d : Directory) (input : List UInt8) (setting : Option String) (args : List String) :
    Outcome × Directory :=
  (run (Access.ofDirectory input) setting args).run d

end VertexPack.CommandLine
