import AsmListing.Disk.Path
import AsmListing.Text.Printable

/-!
The disk: files and directories by their place in one tree, and the calls that read and change it.
A call that fails leaves the disk as it is. The tree holds no links of any kind, so every place is
reached in one way only.
-/
namespace AsmListing

/-- Bytes are compared as arrays, whatever other decision is at hand. -/
instance decidableEqBytes : DecidableEq ByteArray := ByteArray.decEq

/-- What stands at a place: a file or a directory, never a symbolic link. -/
inductive Node where
  | file (bytes : ByteArray) (mode : Nat)
  | directory (mode : Nat)
  deriving DecidableEq, Inhabited

namespace Node

/-- The permission bits. -/
def mode : Node → Nat
  | .file _ m | .directory m => m

/-- The owner may read a file, or list a directory. -/
def isReadable (n : Node) : Bool := n.mode.testBit 8

/-- The owner may write a file, or change what stands in a directory. -/
def isWritable (n : Node) : Bool := n.mode.testBit 7

/-- The owner may go through a directory. -/
def isSearchable (n : Node) : Bool := n.mode.testBit 6

def withMode (m : Nat) : Node → Node
  | .file b _ => .file b m
  | .directory _ => .directory m

def isDirectory : Node → Bool
  | .directory _ => true
  | .file _ _ => false

end Node

/-- The rights that a process denies to the group and to others on all it makes. -/
structure Umask where
  denied : Fin 0o100
  deriving DecidableEq, Repr

namespace Umask

/-- Nobody else may change anything. -/
def usual : Umask := ⟨⟨0o22, by decide⟩⟩

/-- What is left of a mode. The owner loses nothing. -/
def restrict (u : Umask) (mode : Nat) : Nat := mode &&& (0o777 ^^^ u.denied)

def fileMode (u : Umask) : Nat := u.restrict 0o666

def directoryMode (u : Umask) : Nat := u.restrict 0o777

end Umask

/-- The causes for which a call is refused. -/
inductive Refusal where
  | noEntry
  | denied
  | busy
  | taken
  | noFreshName
  | notDirectory
  | isDirectory
  | noSpace
  | nameTooLong
  deriving DecidableEq, Repr, Inhabited

namespace Refusal

def number : Refusal → Nat
  | .noEntry => 2
  | .denied => 13
  | .busy => 16
  | .taken | .noFreshName => 17
  | .notDirectory => 20
  | .isDirectory => 21
  | .noSpace => 28
  | .nameTooLong => 36

def message : Refusal → Text
  | .noEntry => "No such file or directory"
  | .denied => "Permission denied"
  | .busy => "Device or resource busy"
  | .taken => "File exists"
  | .noFreshName => "No usable temporary file name found"
  | .notDirectory => "Not a directory"
  | .isDirectory => "Is a directory"
  | .noSpace => "No space left on device"
  | .nameTooLong => "File name too long"

/-- The refusal of a path to which nothing can lead. -/
def meansAbsence (r : Refusal) : Bool := r == .noEntry || r == .notDirectory

end Refusal

/-- A refused call: its cause, and the paths it was about. -/
structure DiskFault where
  refusal : Refusal
  paths : List LooseText
  deriving DecidableEq, Repr

def DiskFault.message (f : DiskFault) : Text :=
  let cause := "[Errno " ++ Text.ofNat f.refusal.number ++ "] " ++ f.refusal.message
  if f.paths.isEmpty then cause
  else cause ++ ": " ++ Text.joinWith " -> " (f.paths.map LooseText.quoted)

/-- The tree of files and directories, and what the process denies to others on all it makes. The
root of the tree is always there. -/
structure Disk where
  entries : List (Place × Node)
  umask : Umask := Umask.usual
  deriving DecidableEq

namespace Disk

variable (d : Disk)

def empty : Disk := { entries := [] }

def node? (p : Place) : Option Node :=
  match p, d.entries.lookup p with
  | [], none => some (.directory 0o755)
  | _, found => found

/-- The entries with `n` at place `p`: in its place if something stands there, else at the end. -/
def setEntry (p : Place) (n : Node) : List (Place × Node) → List (Place × Node)
  | [] => [(p, n)]
  | (q, m) :: rest => if q = p then (p, n) :: rest else (q, m) :: setEntry p n rest

def set (p : Place) (n : Node) : Disk := { d with entries := setEntry p n d.entries }

def erase (p : Place) : Disk := { d with entries := d.entries.filter fun e => e.1 != p }

/-- Puts a node at a place, and directories wherever nothing stands on the way to it. -/
def plant (p : Place) (n : Node) : Disk :=
  let above := (List.range p.length).map p.take
  let led := above.foldl (fun d q => if (d.node? q).isSome then d else d.set q (.directory 0o755)) d
  led.set p n

/-- The largest number of bytes in a name. -/
def nameLimit : Nat := 255

/-- The largest number of bytes in a path. -/
def pathLimit : Nat := 4095

/-- A name that no directory can hold. -/
def isTooLong (name : LooseText) : Bool := decide (nameLimit < (FileName.bytes name).length)

/-- A path that no call takes. -/
def isOverlong (path : LooseText) : Bool := decide (pathLimit < (FileName.bytes path).length)

/-- Follows `parts` from the place `p`. Whatever is followed has to be a directory that one may go
through; the last part need not exist. -/
def follow (p : Place) : List LooseText → Except Refusal Place
  | [] => .ok p
  | part :: rest =>
    match d.node? p with
    | none => .error .noEntry
    | some n =>
      if !n.isDirectory then .error .notDirectory
      else if !n.isSearchable then .error .denied
      else if part = FilePath.back then follow p.dropLast rest
      else if isTooLong part then .error .nameTooLong
      else follow (p ++ [FileName.known part]) rest

/-- The place that an absolute path leads to. -/
def place (path : FilePath) : Except Refusal Place :=
  if isOverlong path.toText then .error .nameTooLong else d.follow [] path.parts

/-- What an absolute path leads to. -/
def status (path : FilePath) : Except Refusal (Place × Node) :=
  match d.place path with
  | .error e => .error e
  | .ok p =>
    match d.node? p with
    | some n => .ok (p, n)
    | none => .error .noEntry

/-- What stands at a path, if anything does. A refusal that leaves this open is a fault. -/
def probe (path : FilePath) : Except DiskFault (Option Node) :=
  if path.isNameable then
    match d.status path with
    | .ok (_, n) => .ok (some n)
    | .error e => if e.meansAbsence then .ok none else .error ⟨e, [path.toText]⟩
  else .ok none

/-- One may make or remove what stands at a place: the directory above it can be changed. -/
def isOpenAbove (p : Place) : Bool :=
  match d.node? p.dropLast with
  | some above => above.isWritable && above.isSearchable
  | none => false

/-- The bytes of a file. -/
def read (path : FilePath) : Except DiskFault ByteArray :=
  let refuse (e : Refusal) : Except DiskFault ByteArray := .error ⟨e, [path.toText]⟩
  match d.status path with
  | .error e => refuse e
  | .ok (_, n) =>
    if !n.isReadable then refuse .denied
    else match n with
      | .directory _ => refuse .isDirectory
      | .file bytes _ => .ok bytes

/-- Writes all bytes of a file, which need not exist before. -/
def write (path : FilePath) (bytes : ByteArray) : Except DiskFault Disk :=
  let refuse (e : Refusal) : Except DiskFault Disk := .error ⟨e, [path.toText]⟩
  match d.place path with
  | .error e => refuse e
  | .ok p =>
    match d.node? p with
    | some (.directory _) => refuse .isDirectory
    | some n => if n.isWritable then .ok (d.set p (.file bytes n.mode)) else refuse .denied
    | none =>
      if d.isOpenAbove p then .ok (d.set p (.file bytes d.umask.fileMode)) else refuse .denied

/-- Puts a node at a path where nothing stands yet. -/
def add (path : FilePath) (n : Node) : Except DiskFault Disk :=
  let refuse (e : Refusal) : Except DiskFault Disk := .error ⟨e, [path.toText]⟩
  match d.place path with
  | .error e => refuse e
  | .ok p =>
    match d.node? p with
    | some _ => refuse .taken
    | none => if d.isOpenAbove p then .ok (d.set p n) else refuse .denied

/-- Makes an empty file that does not exist yet. -/
def create (path : FilePath) (mode : Nat) : Except DiskFault Disk :=
  d.add path (.file ByteArray.empty (d.umask.restrict mode))

def makeDirectory (path : FilePath) : Except DiskFault Disk :=
  d.add path (.directory d.umask.directoryMode)

/-- Gives the node that a path leads to another mode. -/
def changeMode (path : FilePath) (mode : Nat) : Except DiskFault Disk :=
  match d.status path with
  | .error e => .error ⟨e, [path.toText]⟩
  | .ok (p, n) => .ok (d.set p (n.withMode mode))

/-- Removes a file. -/
def unlink (path : FilePath) : Except DiskFault Disk :=
  let refuse (e : Refusal) : Except DiskFault Disk := .error ⟨e, [path.toText]⟩
  match d.status path with
  | .error e => refuse e
  | .ok (p, n) =>
    if !d.isOpenAbove p then refuse .denied
    else if n.isDirectory then refuse .isDirectory
    else .ok (d.erase p)

/-- Moves a file over another one or to a place where nothing stands. -/
def rename (source target : FilePath) : Except DiskFault Disk :=
  let refuse (e : Refusal) : Except DiskFault Disk :=
    .error ⟨e, [source.toText, target.toText]⟩
  match d.status source with
  | .error e => refuse e
  | .ok (p, n) =>
    match d.place target with
    | .error e => refuse e
    | .ok q =>
      if target.name = FilePath.back then refuse .busy
      else if !d.isOpenAbove p || !d.isOpenAbove q then refuse .denied
      else
        match d.node? q with
        | some (.directory _) => refuse .isDirectory
        | _ => .ok ((d.erase p).set q n)

/-- The entries that stand directly in the directory at place `p`. -/
def children (p : Place) : List (LooseText × Node) :=
  d.entries.filterMap fun (q, n) =>
    match q.getLast? with
    | some name => if q.dropLast = p then some (name, n) else none
    | none => none

/-- More than the length of any place. -/
def depthBound : Nat := (d.entries.map fun e => e.1.length).foldl max 0 + 1

end Disk

end AsmListing
