import VertexPack.Account
import VertexPack.RecordSet

/-!
A report on the delta stream of a record set: sizes, their ratio, and the account of the
channels; as a text for people, and as a text in the JSON notation. Such a text is spread
over lines: two spaces for each level, one element a line, and empty collections on one
line. Keys are written as they are, so they may hold no character that needs an escape.
-/
namespace VertexPack

inductive JsonText where
  | number (text : String)
  | array (items : List JsonText)
  | object (fields : List (String × JsonText))

namespace JsonText

def indent (level : Nat) : String := String.ofList (List.replicate (2 * level) ' ')

mutual

def render (level : Nat) : JsonText → String
  | number text => text
  | array [] => "[]"
  | array (v :: vs) =>
    "[\n" ++ indent (level + 1) ++ render (level + 1) v ++ renderItems (level + 1) vs ++ "\n"
      ++ indent level ++ "]"
  | object [] => "\x7b\x7d"
  | object ((k, v) :: fs) =>
    "\x7b\n" ++ indent (level + 1) ++ "\"" ++ k ++ "\": " ++ render (level + 1) v
      ++ renderFields (level + 1) fs ++ "\n" ++ indent level ++ "\x7d"

def renderItems (level : Nat) : List JsonText → String
  | [] => ""
  | v :: vs => ",\n" ++ indent level ++ render level v ++ renderItems level vs

def renderFields (level : Nat) : List (String × JsonText) → String
  | [] => ""
  | (k, v) :: fs =>
    ",\n" ++ indent level ++ "\"" ++ k ++ "\": " ++ render level v ++ renderFields level fs

end

def ofNat (n : Nat) : JsonText := number (toString n)

def ofNats (ns : List Nat) : JsonText := array (ns.map ofNat)

end JsonText

structure Report where
  stride : Nat
  vertexCount : Nat
  inputBytes : Nat
  encodedBytes : Nat
  ratio : Binary64
  account : Account

namespace Report

/-- The number of bytes that the totals of a channel occupy. -/
def channelBytes : Nat := 144

/-- Encodes the records as a delta stream and reports on it. There has to be memory for the
totals of as many channels as a record has bytes, even where no such record can be encoded. -/
def ofRecords (set : RecordSet) (version : UInt8) : Work Report := do
  Work.allocate (set.stride * channelBytes)
  let _ ← Work.ofExcept .capacity (DeltaStream.bound set.count set.stride)
  let (stream, account) ←
    set.encodeObserved .delta version Account.observer (Account.empty set.stride)
  pure {
    stride := set.stride
    vertexCount := set.count
    inputBytes := set.data.length
    encodedBytes := stream.length
    ratio := .share set.data.length stream.length
    account := account }

def text (r : Report) : String :=
  s!"{r.vertexCount} vertices, stride {r.stride}: {r.inputBytes} -> {r.encodedBytes} bytes ("
    ++ r.ratio.fixed 2 ++ "x)\n" ++ r.account.table

def channelJson (c : ChannelAccount) : JsonText :=
  .object [
    ("size", .ofNat c.size),
    ("header", .ofNat c.header),
    ("group_bytes", .ofNats c.groupBytes.toList),
    ("group_counts", .ofNats c.groupCounts.toList),
    ("shared_bits", .ofNats c.sharedBits.toList)]

def accountJson (a : Account) : JsonText :=
  .object [
    ("vertex_count", .ofNat a.vertexCount),
    ("total_size", .ofNat a.totalSize),
    ("channels", .array (a.channels.map channelJson))]

def json (r : Report) : String :=
  JsonText.render 0 <| .object [
    ("stride", .ofNat r.stride),
    ("vertex_count", .ofNat r.vertexCount),
    ("input_bytes", .ofNat r.inputBytes),
    ("encoded_bytes", .ofNat r.encodedBytes),
    ("ratio", .number r.ratio.shortest.positional),
    ("stats", accountJson r.account)]

end Report
end VertexPack
