import AsmListing.Disk.Basic

/-!
Replacing a file in one step: the new bytes go to a temporary file beside the old one, which then
takes its name. Whatever goes wrong on the way, the temporary file does not stay.
-/
namespace AsmListing

/-- Why a file is not replaced: a call was refused, or no disk takes one of the paths. -/
inductive ReplaceFault where
  | refused (fault : DiskFault)
  | flawed (flaw : PathFlaw)
  deriving DecidableEq, Repr

namespace Disk

/-- Eight letters and digits for the `i`-th attempt at a fresh name. -/
def freshLetters (i : Nat) : Text := Text.ofHex 8 i

/-- So many names are tried for a temporary file. -/
def nameAttempts : Nat := 10000

/-- The name of a temporary file for the file `name`. -/
def temporaryName (name : LooseText) (i : Nat) : LooseText :=
  .char '.' :: name ++ ('.' :: freshLetters i ++ ".tmp" : Text)

/-- Tries the names from the `i`-th attempt on, `left` of them, until one is not taken. -/
def createFresh (d : Disk) (directory : FilePath) (name : LooseText) (i : Nat) :
    Nat → Except ReplaceFault (FilePath × Disk)
  | 0 => .error (.refused ⟨.noFreshName, []⟩)
  | left + 1 =>
    let path := directory.child (temporaryName name i)
    match path.flaw? with
    | some flaw => .error (.flawed flaw)
    | none =>
      match d.create path 0o600 with
      | .ok d' => .ok (path, d')
      | .error e =>
        if e.refusal = .taken then createFresh d directory name (i + 1) left
        else .error (.refused e)

/-- The directory of `path`, told from its parts alone: double dots are taken together with what
stands before them, be it there or not. -/
def temporaryDirectory (path : FilePath) : FilePath :=
  ⟨path.anchor, FilePath.normalParts path.parent.parts⟩

/-- Makes an empty temporary file in the directory of `path`, readable by its owner only. -/
def createTemporary (d : Disk) (path : FilePath) : Except ReplaceFault (FilePath × Disk) :=
  d.createFresh (temporaryDirectory path) path.name 0 nameAttempts

/-- Fills the temporary file, which has been open since it was made. Where the device has `room` for
some bytes only, the file holds those when it is full. -/
def fill (d : Disk) (room : Option Nat) (temporary : FilePath) (bytes : ByteArray) :
    Except DiskFault Unit × Disk :=
  let holding (bytes : ByteArray) : Disk :=
    match d.status temporary with
    | .ok (p, n) => d.set p (.file bytes n.mode)
    | .error _ => d
  match room.filter (· < bytes.size) with
  | some n => (.error ⟨.noSpace, []⟩, holding (bytes.extract 0 n))
  | none => (.ok (), holding bytes)

/-- Gives the temporary file the mode of the file at `path`, if there is one. -/
def takeMode (d : Disk) (path temporary : FilePath) : Except DiskFault Disk :=
  match d.probe path with
  | .error e => .error e
  | .ok none => .ok d
  | .ok (some n) => d.changeMode temporary n.mode

/-- Moves the temporary file to `path`. -/
def settle (d : Disk) (temporary path : FilePath) : Except ReplaceFault Disk :=
  match path.flaw? with
  | some flaw => .error (.flawed flaw)
  | none => (d.rename temporary path).mapError .refused

/-- Fills the temporary file, gives it the mode of the file at `path` if there is one, and moves it
to `path`. With a failure comes the disk on which it happened. -/
def install (d : Disk) (room : Option Nat) (temporary path : FilePath) (bytes : ByteArray) :
    Except ReplaceFault Unit × Disk :=
  match d.fill room temporary bytes with
  | (.error e, full) => (.error (.refused e), full)
  | (.ok (), filled) =>
    match filled.takeMode path temporary with
    | .error e => (.error (.refused e), filled)
    | .ok ready =>
      match ready.settle temporary path with
      | .error e => (.error e, ready)
      | .ok installed => (.ok (), installed)

/-- Removes the temporary file if it is still there. -/
def discard (d : Disk) (temporary : FilePath) : Disk :=
  match d.unlink temporary with
  | .ok d' => d'
  | .error _ => d

/-- Gives the file at `path` new bytes in one step, where the device has `room` for so many. -/
def replaceWithin (room : Option Nat) (d : Disk) (path : FilePath) (bytes : ByteArray) :
    Except ReplaceFault Unit × Disk :=
  match d.createTemporary path with
  | .error e => (.error e, d)
  | .ok (temporary, created) =>
    match created.install room temporary path bytes with
    | (.ok (), installed) => (.ok (), installed)
    | (.error e, failed) => (.error e, failed.discard temporary)

end Disk

end AsmListing
