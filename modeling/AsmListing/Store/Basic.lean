import AsmListing.Disk.Replacement
import AsmListing.Failure

/-!
The module store: texts of modules on the disk, below a root directory. A module that has been read
is written back in the encoding that was found then, any other one as UTF-8.
-/
namespace AsmListing

/-- The disk, the directory that module names start from, and the encodings found so far. -/
structure Store where
  disk : Disk
  root : FilePath
  encodings : List (FilePath × Encoding)
  deriving DecidableEq

/-- What a successful write has done. -/
structure Written where
  path : FilePath
  byteCount : Nat
  encoding : Encoding
  deriving DecidableEq, Repr

namespace Store

variable (s : Store)

/-- The path of a module. -/
def path (module : LooseText) : FilePath := s.root.join (FilePath.ofText module)

/-- The encoding in which the module would be written. -/
def encodingOf (module : LooseText) : Encoding := (s.encodings.lookup (s.path module)).getD .utf8

/-- Notes the encoding of a path. -/
def remember (path : FilePath) (e : Encoding) : Store :=
  { s with encodings := (path, e) :: s.encodings.filter fun x => x.1 != path }

/-- The text of a module, with the encoding that was found. -/
def load (module : LooseText) : Except Failure (Text × Encoding) :=
  match (s.path module).flaw? with
  | some flaw => .error (.badPath flaw)
  | none =>
    match s.disk.read (s.path module) with
    | .error e => .error (.moduleAccess (.unreadable module e))
    | .ok bytes => .ok (Encoding.detect bytes.data.toList)

/-- Reads a module and remembers its encoding. -/
def read (module : LooseText) : Except Failure Text × Store :=
  match s.load module with
  | .error e => (.error e, s)
  | .ok (text, e) => (.ok text, s.remember (s.path module) e)

/-- The failure of a module whose file is not replaced. A refused call is put down to the module. -/
def unwritten (module : LooseText) : ReplaceFault → Failure
  | .refused fault => .moduleAccess (.unwritable module fault)
  | .flawed flaw => .badPath flaw

/-- Replaces the text of a module, where the device has `room` for so many bytes. -/
def writeWithin (room : Option Nat) (module text : LooseText) : Except Failure Written × Store :=
  let path := s.path module
  let encoding := s.encodingOf module
  match encoding.encode text with
  | .error e => (.error (.moduleAccess (.unencodable module encoding e)), s)
  | .ok bytes =>
    match s.disk.replaceWithin room path ⟨bytes.toArray⟩ with
    | (.error e, disk) => (.error (unwritten module e), { s with disk })
    | (.ok (), disk) => (.ok ⟨path, bytes.length, encoding⟩, { s with disk })

/-- Replaces the text of a module. -/
def write (module text : LooseText) : Except Failure Written × Store :=
  s.writeWithin none module text

end Store

end AsmListing
