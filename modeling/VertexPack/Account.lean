import VertexPack.Decimal
import VertexPack.Session

/-!
An account is the observer that adds up, channel by channel, where the bytes of a stream
went. Its table has one line for each channel: its bytes, their share of the stream, the
bits it takes for a record, how its bytes divide among headers and widths, and how often
each bit stays the same.
-/
namespace VertexPack

def total (counts : List Nat) : Nat := counts.foldr (· + ·) 0

/-- The totals of one channel over all blocks; groups are told apart by their selector code,
bits by their place, lowest first. -/
structure ChannelAccount where
  size : Nat := 0
  header : Nat := 0
  groupBytes : Vector Nat 4 := Vector.replicate 4 0
  groupCounts : Vector Nat 4 := Vector.replicate 4 0
  sharedBits : Vector Nat 8 := Vector.replicate 8 0
  deriving Repr, DecidableEq

namespace ChannelAccount

def empty : ChannelAccount := {}

/-- The bytes of the channel as they were counted group by group. -/
def countedBytes (c : ChannelAccount) : Nat := c.header + total c.groupBytes.toList

def addHeader (bytes : Nat) (c : ChannelAccount) : ChannelAccount :=
  { c with header := c.header + bytes }

def addGroup (width : Width) (bytes : Nat) (c : ChannelAccount) : ChannelAccount :=
  { c with
    groupBytes := Vector.ofFn fun i => c.groupBytes[i] + if i.val = width.code then bytes else 0
    groupCounts := Vector.ofFn fun i => c.groupCounts[i] + if i.val = width.code then 1 else 0 }

def addConsistency (shared : UInt8) (values : Nat) (c : ChannelAccount) : ChannelAccount :=
  { c with
    sharedBits := Vector.ofFn fun i =>
      c.sharedBits[i] + if (shared >>> i.val.toUInt8) &&& 1 = 1 then values else 0 }

def addBytes (bytes : Nat) (c : ChannelAccount) : ChannelAccount :=
  { c with size := c.size + bytes }

end ChannelAccount

structure Account where
  vertexCount : Nat := 0
  totalSize : Nat := 0
  channels : List ChannelAccount := []
  deriving Repr, DecidableEq

namespace Account

def empty (channels : Nat) : Account := { channels := List.replicate channels .empty }

def update (a : Account) (channel : Nat) (change : ChannelAccount → ChannelAccount) : Account :=
  let missing := List.replicate (channel + 1 - a.channels.length) ChannelAccount.empty
  { a with channels := (a.channels ++ missing).modify channel change }

def record (a : Account) : Event → Account
  | .header channel bytes => a.update channel (.addHeader bytes)
  | .group channel width bytes => a.update channel (.addGroup width bytes)
  | .consistency channel shared values => a.update channel (.addConsistency shared values)
  | .channel channel bytes => a.update channel (.addBytes bytes)
  | .stream count total => { a with vertexCount := count, totalSize := total }

def observer : Observer Account where
  record := record

/-- The bytes of all channels; the format byte and the tail belong to none. -/
def blockBytes (a : Account) : Nat := total (a.channels.map (·.size))

/-- The mean number of bits that a channel takes for a record; there is none for a channel
that the account lacks, unless it has no records either. -/
def bitsPerVertex (a : Account) (channel : Nat) : Option Binary64 :=
  if a.vertexCount = 0 then some .zero
  else a.channels[channel]?.map fun c => .share (c.size * 8) a.vertexCount

def percent (length places part whole : Nat) : String :=
  padLeft length (((Binary64.share part whole).mulNat 100).fixed places) ++ "%"

def line (a : Account) (index : Nat) (c : ChannelAccount) : String :=
  let counted := c.countedBytes
  let bits := (Binary64.share (c.size * 8) a.vertexCount).fixed 1
  let group := fun bytes => percent 4 1 bytes counted
  let shared := c.sharedBits.toList.map fun n => percent 3 0 n a.vertexCount
  padLeft 2 (toString index) ++ ": " ++ padLeft 7 (toString c.size) ++ " bytes ["
    ++ percent 4 1 c.size a.totalSize ++ "] " ++ bits ++ " bpv |\thdr ["
    ++ percent 5 1 c.header counted ++ "] bitg 1-3 ["
    ++ " ".intercalate [group c.groupBytes[1], group c.groupBytes[2], group c.groupBytes[3]]
    ++ "] |\tbitc ["
    ++ " ".intercalate shared ++ "]\n"

def table (a : Account) : String :=
  String.join (a.channels.mapIdx fun i c => a.line i c)

end Account
end VertexPack
