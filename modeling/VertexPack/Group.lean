import VertexPack.Layout

/-!
A group is sixteen folded deltas of one channel. At width one it takes no bytes
and stands for zeros; at width eight its entries are stored as they are. At
widths two and four each entry has a field, first entry in the highest bits; an
entry that does not fit below the all-ones field is escaped: its field is all
ones and the entry itself follows after the fields, in order.
-/
namespace VertexPack

abbrev Group := Vector UInt8 16

namespace Width

/-- The field that announces an escaped entry: all ones. -/
def sentinel : Width → UInt8
  | one => 1
  | two => 3
  | four => 15
  | eight => 255

def perByte (w : Width) : Nat := 8 / w.bits

def fixedSize (w : Width) : Nat := Layout.groupSize / w.perByte

/-- The fields of a byte's worth of entries, the first in the highest bits. -/
def packByte (w : Width) (entries : List UInt8) : UInt8 :=
  entries.foldl (fun b v => (b <<< w.bits.toUInt8) ||| min v w.sentinel) 0

def field (w : Width) (b : UInt8) (i : Nat) : UInt8 :=
  (b >>> (8 - w.bits * (i + 1)).toUInt8) &&& w.sentinel

end Width

namespace Group

def ofList (entries : List UInt8) : Group := Vector.ofFn fun i => entries.getD i 0

def split (deltas : List UInt8) : List Group := (chunks Layout.groupSize deltas).map ofList

def isZero (g : Group) : Bool := g.toList.all (· = 0)

def packFields (g : Group) (w : Width) : List UInt8 :=
  (chunks w.perByte g.toList).map w.packByte

def escapes (g : Group) (w : Width) : List UInt8 := g.toList.filter (w.sentinel ≤ ·)

/-- The bytes of a group at the given width; width one holds only zeros. -/
def pack? (g : Group) : Width → Option (List UInt8)
  | .one => if g.isZero then some [] else none
  | .two => some (g.packFields .two ++ g.escapes .two)
  | .four => some (g.packFields .four ++ g.escapes .four)
  | .eight => some g.toList

/-- Of a width and its size, and a width to be tried, the strictly smaller one. -/
def better (g : Group) (best : Width × Nat) (w : Width) : Width × Nat :=
  match g.pack? w with
  | some bs => if bs.length < best.2 then (w, bs.length) else best
  | none => best

/-- The width with the fewest bytes, and their number. Width eight is only left for a
strictly smaller one, and of the others the narrowest wins a tie. -/
def select (g : Group) : Width × Nat :=
  [Width.one, .two, .four].foldl g.better (.eight, Layout.groupSize)

/-- Reads the fields, then for each field that announces it the escaped entry. -/
def unpackFields (w : Width) : Reading CursorError Group := do
  let ⟨fixed, _⟩ ← Reader.take w.fixedSize
  Vector.ofFnM fun i => do
    let v := w.field (fixed.getD (i / w.perByte) 0) (i % w.perByte)
    if v = w.sentinel then Reader.byte else pure v

def unpack : Width → Reading CursorError Group
  | .one => pure (Vector.replicate 16 0)
  | .two => unpackFields .two
  | .four => unpackFields .four
  | .eight => do
    let ⟨bs, h⟩ ← Reader.take 16
    pure ⟨bs.toArray, by simpa using h⟩

end Group
end VertexPack
