import VertexPack.CommandLine.Scan
import VertexPack.RecordSet

/-!
The commands of the command line and the arguments that name them.
-/
namespace VertexPack.CommandLine

inductive Command where
  | encode (stride : Nat) (format : StreamFormat) (version : UInt8) (kept : Option Nat)
      (output input : Option String)
  | decode (stride count : Nat) (format : StreamFormat) (output input : Option String)
  | stats (stride : Nat) (kept : Option Nat) (json : Bool) (input : Option String)
  deriving Repr, DecidableEq

namespace Command

def input : Command → Option String
  | encode _ _ _ _ _ input | decode _ _ _ _ input | stats _ _ _ input => input

def output : Command → Option String
  | encode _ _ _ _ output _ | decode _ _ _ output _ => output
  | stats .. => none

end Command

inductive Setting where
  | stride (bytes : Nat)
  | count (records : Nat)
  | format (format : StreamFormat)
  | version (version : UInt8)
  | kept (bytes : Nat)
  | output (path : String)
  | json
  | verbose
  deriving Repr, DecidableEq

/-- The number that decimal digits write, after a plus sign perhaps. -/
def decimal? (text : String) : Option Nat :=
  let digits := match text.toList with
    | '+' :: cs => cs
    | cs => cs
  if digits.isEmpty || !digits.all Char.isDigit then none
  else some (digits.foldl (fun n c => 10 * n + (c.toNat - '0'.toNat)) 0)

def size? (text : String) : Option Nat := (decimal? text).bind Capacity.checked

/-- A stream version: a number of one byte. Since it is read as a signed number, a minus sign
may stand before zero. -/
def version? (text : String) : Option UInt8 :=
  let value := match text.toList with
    | '-' :: '+' :: _ => none
    | '-' :: cs => (decimal? (String.ofList cs)).filter (· = 0)
    | _ => decimal? text
  value.bind fun n => if n < 256 then some n.toUInt8 else none

def format? (text : String) : Option StreamFormat :=
  if text = "v1" then some .delta else if text = "bitplane" then some .planes else none

def path? (text : String) : Option String := if text.isEmpty then none else some text

/-- The flag for more logging, which may stand before and behind the command. -/
def verboseSwitch : Switch Setting := ⟨"verbose", some 'v', .flag .verbose⟩

def helpSwitch : Switch Setting := ⟨"help", some 'h', .halt .help⟩

def globalSwitches : List (Switch Setting) :=
  [verboseSwitch, helpSwitch, ⟨"version", some 'V', .halt .version⟩]

def commandSwitches : List (String × List (Switch Setting)) :=
  let option {α : Type} (long : String) (read : String → Option α) (setting : α → Setting) :
      Switch Setting := { long, action := .option fun text => (read text).map setting }
  let stride := option "stride" size? .stride
  let count := option "count" size? .count
  let format := option "format" format? .format
  let version := option "version" version? .version
  let kept := option "prefix" size? .kept
  let output := { option "output" path? .output with short := some 'o' }
  let json : Switch Setting := { long := "json", action := .flag .json }
  [("encode", [verboseSwitch, helpSwitch, stride, format, version, kept, output]),
   ("decode", [verboseSwitch, helpSwitch, stride, count, format, output]),
   ("stats", [verboseSwitch, helpSwitch, stride, kept, json])]

def required {α : Type} (s : Scan Setting) (name : String) (pick : Setting → Option α) :
    Except Halt α :=
  match s.find? pick with
  | some value => .ok value
  | none => .error (.usage (.missingOption name))

def Command.ofScan (name : String) (s : Scan Setting) : Except Halt Command := do
  let stride ← required s "stride" fun | .stride n => some n | _ => none
  let format := (s.find? fun | .format f => some f | _ => none).getD .delta
  let kept := s.find? fun | .kept n => some n | _ => none
  let output := s.find? fun | .output path => some path | _ => none
  match name with
  | "encode" =>
    let version := s.find? fun | .version v => some v | _ => none
    pure (.encode stride format (version.getD FormatByte.defaultVersion) kept output s.plain)
  | "decode" =>
    let count ← required s "count" fun | .count n => some n | _ => none
    pure (.decode stride count format output s.plain)
  | _ =>
    let json := s.find? fun | .json => some () | _ => none
    pure (.stats stride kept json.isSome s.plain)

structure Invocation where
  verbose : Bool
  command : Command

def isVerbose (s : Scan Setting) : Bool :=
  (s.find? fun | .verbose => some () | _ => none).isSome

/-- The outcome of the command `help`: it takes the name of a command, its own too, and no
more. -/
def helpAbout : List String → Halt
  | [] => .help
  | name :: more =>
    if name = "help" || (commandSwitches.lookup name).isSome then
      match more with
      | [] => .help
      | extra :: _ => .usage (.unknownArgument extra)
    else .usage (.unknownArgument name)

def Invocation.ofArgumentsAfter (s : Scan Setting) : List String → Except Halt Invocation
  | [] => .error (.usage .missingCommand)
  | arg :: args =>
    match Token.ofArgument arg with
    | .plain name =>
      match commandSwitches.lookup name with
      | none => .error (if name = "help" then helpAbout args else .usage (.unknownArgument name))
      | some switches => do
        let inner ← Scan.all switches args
        let command ← Command.ofScan name inner
        pure ⟨isVerbose s || isVerbose inner, command⟩
    | .separator => .error (.usage .missingCommand)
    | _ => do
      let s ← s.step globalSwitches arg
      Invocation.ofArgumentsAfter s args

def Invocation.ofArguments (args : List String) : Except Halt Invocation :=
  Invocation.ofArgumentsAfter {} args

end VertexPack.CommandLine
