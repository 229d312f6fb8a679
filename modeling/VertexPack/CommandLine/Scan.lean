/-!
Scanning command-line arguments: options with values, flags, clusters of short
flags, and one plain argument. Every argument is judged before the next one is
looked at, so a scan stops at the first that makes no sense or that asks for a
text instead of a run, and nothing behind it matters.
-/
namespace VertexPack.CommandLine

inductive UsageError where
  | unknownArgument (text : String)
  | missingValue (name : String)
  | unexpectedValue (name : String)
  | repeatedOption (name : String)
  | invalidValue (name value : String)
  | missingOption (name : String)
  | missingCommand
  deriving Repr, DecidableEq

def UsageError.message : UsageError → String
  | unknownArgument text => s!"unexpected argument '{text}' found"
  | missingValue name => s!"a value is required for '--{name}' but none was supplied"
  | unexpectedValue name => s!"'--{name}' takes no value"
  | repeatedOption name => s!"the argument '--{name}' cannot be used multiple times"
  | invalidValue name value => s!"invalid value '{value}' for '{name}'"
  | missingOption name => s!"the argument '--{name}' is required"
  | missingCommand => "a command is required"

/-- Why a scan stops without a command to be run. -/
inductive Halt where
  | version
  | help
  | usage (cause : UsageError)
  deriving Repr, DecidableEq

variable {σ : Type}

inductive Action (σ : Type) where
  | flag (setting : σ)
  | option (read : String → Option σ)
  | halt (cause : Halt)

structure Switch (σ : Type) where
  long : String
  short : Option Char := none
  action : Action σ

inductive Token where
  | separator
  | long (name : String) (value : Option String)
  | short (letters : List Char)
  | plain (text : String)
  deriving Repr, DecidableEq

def Token.ofArgument (arg : String) : Token :=
  match arg.toList with
  | ['-', '-'] => .separator
  | '-' :: '-' :: cs =>
    let name := String.ofList (cs.takeWhile (· ≠ '='))
    match cs.dropWhile (· ≠ '=') with
    | [] => .long name none
    | _ :: value => .long name (some (String.ofList value))
  | '-' :: c :: cs => .short (c :: cs)
  -- A single dash is plain too.
  | _ => .plain arg

structure Scan (σ : Type) where
  settled : List (String × σ) := []
  plain : Option String := none
  /-- The name of an option whose value is the next argument, and how it is read. -/
  pending : Option (String × (String → Option σ)) := none
  literal : Bool := false

namespace Scan

def settle (s : Scan σ) (name : String) (setting : σ) : Except Halt (Scan σ) :=
  if s.settled.any (·.1 = name) then .error (.usage (.repeatedOption name))
  else .ok { s with settled := s.settled ++ [(name, setting)], pending := none }

def addValue (s : Scan σ) (name : String) (read : String → Option σ) (text : String) :
    Except Halt (Scan σ) :=
  match read text with
  | some setting => s.settle name setting
  | none => .error (.usage (.invalidValue name text))

def addPlain (s : Scan σ) (text : String) : Except Halt (Scan σ) :=
  if s.plain.isSome then .error (.usage (.unknownArgument text))
  else if text.isEmpty then .error (.usage (.invalidValue "INPUT" text))
  else .ok { s with plain := some text }

/-- Enters the letters of a cluster in turn. The first that takes a value takes the rest of
the cluster, without one equals sign, or else the next argument. -/
def addCluster (switches : List (Switch σ)) (s : Scan σ) : List Char → Except Halt (Scan σ)
  | [] => .ok s
  | c :: cs =>
    match switches.find? (·.short = some c) with
    | none => .error (.usage (.unknownArgument (String.ofList ['-', c])))
    | some switch =>
      match switch.action, cs with
      | .halt cause, _ => .error cause
      | .flag setting, cs => do addCluster switches (← s.settle switch.long setting) cs
      | .option read, [] => .ok { s with pending := some (switch.long, read) }
      | .option read, '=' :: value => s.addValue switch.long read (String.ofList value)
      | .option read, value => s.addValue switch.long read (String.ofList value)

def addLong (switches : List (Switch σ)) (s : Scan σ) (name : String) (value : Option String) :
    Except Halt (Scan σ) :=
  match switches.find? (·.long = name) with
  | none => .error (.usage (.unknownArgument ("--" ++ name)))
  | some switch =>
    match switch.action, value with
    | .option read, some text => s.addValue name read text
    | .option read, none => .ok { s with pending := some (name, read) }
    | _, some _ => .error (.usage (.unexpectedValue name))
    | .flag setting, none => s.settle name setting
    | .halt cause, none => .error cause

def step (switches : List (Switch σ)) (s : Scan σ) (arg : String) : Except Halt (Scan σ) :=
  if s.literal then s.addPlain arg
  else
    match s.pending, Token.ofArgument arg with
    | some (name, read), .plain text => s.addValue name read text
    | some (name, _), _ => .error (.usage (.missingValue name))
    | none, .separator => .ok { s with literal := true }
    | none, .plain text => s.addPlain text
    | none, .short letters => s.addCluster switches letters
    | none, .long name value => s.addLong switches name value

def all (switches : List (Switch σ)) (args : List String) : Except Halt (Scan σ) := do
  let s ← args.foldlM (step switches) {}
  match s.pending with
  | some (name, _) => throw (.usage (.missingValue name))
  | none => pure s

def find? {α : Type} (s : Scan σ) (pick : σ → Option α) : Option α :=
  s.settled.findSome? (pick ·.2)

end Scan
end VertexPack.CommandLine
