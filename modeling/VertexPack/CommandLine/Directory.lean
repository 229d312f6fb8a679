import VertexPack.Failure

/-!
A directory of files without subdirectories, and what paths reach from it. A
path is followed part by part, and the first part that leads nowhere decides the
error. Of the places outside the directory only the root and the null device are
known by name.
-/
namespace VertexPack

structure Directory where
  files : List (String × List UInt8)

structure Path where
  absolute : Bool
  parts : List String
  slash : Bool
  deriving Repr, DecidableEq

def Path.ofText (text : String) : Except FileError Path :=
  if text.isEmpty then .error .notFound
  else if text.utf8ByteSize > 4095 then .error .nameTooLong
  else .ok ⟨text.startsWith "/", (text.splitOn "/").filter (· ≠ ""), text.endsWith "/"⟩

namespace Directory

inductive Place where
  | here
  /-- A directory that it lies in, with nothing else known to be there. -/
  | above
  | root
  | devices
  | file (content : List UInt8)
  | null
  deriving Repr, DecidableEq

namespace Place

def isDirectory : Place → Bool
  | here | above | root | devices => true
  | file _ | null => false

def parent : Place → Place
  | here | above => above
  | _ => root

end Place

def content? (d : Directory) (name : String) : Option (List UInt8) := d.files.lookup name

def entry? (d : Directory) (name : String) : Place → Option Place
  | .here => (d.content? name).map .file
  | .root => if name = "dev" then some .devices else none
  | .devices => if name = "null" then some .null else none
  | _ => none

/-- Follows one part of a path; a name has at most 255 bytes. -/
def follow (d : Directory) (place : Place) (part : String) : Except FileError Place :=
  if !place.isDirectory then .error .notDirectory
  else if part = "." then .ok place
  else if part = ".." then .ok place.parent
  else if part.utf8ByteSize > 255 then .error .nameTooLong
  else
    match d.entry? part place with
    | some next => .ok next
    | none => .error .notFound

def walk (d : Directory) (path : Path) (parts : List String) : Except FileError Place :=
  parts.foldlM d.follow (if path.absolute then .root else .here)

def read (d : Directory) (text : String) : Except FileError (List UInt8) := do
  let path ← Path.ofText text
  let place ← d.walk path path.parts
  if place.isDirectory then throw .isDirectory
  if path.slash then throw .notDirectory
  match place with
  | .file content => pure content
  | _ => pure []

def put (d : Directory) (name : String) (bytes : List UInt8) : Directory :=
  ⟨d.files.filter (·.1 ≠ name) ++ [(name, bytes)]⟩

/-- Writes a file. A path that ends in a slash or in dots names a directory, which is noticed
before anything is looked up under its last part. A file that is created elsewhere does not
change the directory. -/
def write (d : Directory) (text : String) (bytes : List UInt8) : Except FileError Directory := do
  let path ← Path.ofText text
  let place ← d.walk path path.parts.dropLast
  if !place.isDirectory then throw .notDirectory
  let name := path.parts.getLastD "."
  if name = "." || name = ".." || path.slash then throw .isDirectory
  match d.follow place name with
  | .ok next => if next.isDirectory then throw .isDirectory
  | .error .notFound => pure ()
  | .error cause => throw cause
  pure (if place = .here then d.put name bytes else d)

end Directory
end VertexPack
