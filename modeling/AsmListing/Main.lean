import AsmListing.CommandLine.Run
import Std.Time

/-!
The program. It takes an image of the directories that its arguments are about, runs on the image,
and brings the changes back to the disk.
-/
namespace AsmListing

namespace Program

/-- The place of a path that begins at the root of the tree. -/
def imagePlace (path : Text) : Place := (FilePath.ofText path).target

/-- The path of a place as the system takes it. -/
def imagePath (p : Place) : String := String.ofList (FilePath.toText ⟨.root, p⟩).characters

/-- Adds what stands at an entry of the disk to an image. Links to directories are not followed, and
nothing below `.git` is of interest. -/
partial def gather (entry : IO.FS.DirEntry) (d : Disk) : IO Disk := do
  let path := entry.path
  let p := imagePlace path.toString.toList
  if ← path.isDir then
    let d := d.plant p (.directory 0o755)
    if (← path.symlinkMetadata).type == .symlink || entry.fileName == ".git" then return d
    (← path.readDir).foldlM (fun d inner => gather inner d) d
  else
    try return d.plant p (.file (← IO.FS.readBinFile path) 0o644)
    catch _ => return d.plant p (.file ByteArray.empty 0)

/-- The entry of the disk that a path leads to. -/
def diskEntry (path : FilePath) : IO.FS.DirEntry :=
  let p := path.target
  ⟨imagePath p.dropLast, String.ofList (p.getLast?.getD []).characters⟩

/-- Adds what a path leads to, with all below it. -/
def gatherPath (path : FilePath) (d : Disk) : IO Disk := do
  let entry := diskEntry path
  if ← entry.path.pathExists then gather entry d else return d

/-- Adds a directory with the marks of a workspace root in it, but nothing else of it; or a file. -/
def gatherRoot (path : FilePath) (d : Disk) : IO Disk := do
  if ← (diskEntry path).path.isDir then
    let d := d.plant path.target (.directory 0o755)
    let d ← gatherPath (path.child WorkspaceRoot.settingsDirectory) d
    gatherPath (path.child WorkspaceRoot.versionControlEntry) d
  else gatherPath path d

/-- The paths that an argument may hold: itself, and what stands behind an equals sign in it. -/
def pathsIn (argument : LooseText) : List FilePath :=
  [argument, (argument.dropWhile fun c => c != .char '=').drop 1].map FilePath.ofText

/-- An image of all that the arguments can be about: the directories above the working directory,
those that may be workspace roots, and what the arguments name below one of these. -/
def image (s : Surroundings) (arguments : List LooseText) : IO Disk := do
  let above := (List.range s.directory.parts.length).map fun n =>
    FilePath.mk .root (s.directory.parts.take (n + 1))
  let marked ← above.foldlM (fun d path => gatherRoot path d) Disk.empty
  let paths := arguments.flatMap pathsIn
  let found := (WorkspaceRoot.find marked s.directory s.namedRoot ⟨.relative, []⟩).toOption
  let roots := found.toList ++ (paths.filter fun p => !p.parts.isEmpty).map s.directory.join
  let rooted ← roots.foldlM (fun d path => gatherRoot path d) marked
  let targets := roots.flatMap fun root => (arguments.map FilePath.ofText).map root.join
  targets.foldlM (fun d path => gatherPath path d) rooted

/-- Brings what has changed between two images to the disk. -/
def bring (before after : Disk) : IO Unit :=
  after.entries.forM fun (p, n) =>
    if before.node? p = some n then pure ()
    else match n with
      | .directory _ => IO.FS.createDirAll (imagePath p)
      | .file bytes _ => IO.FS.writeBinFile (imagePath p) bytes

/-- The time in seconds, in Greenwich. -/
def clock : IO Text := do
  let now := Std.Time.DateTime.ofTimestampWithZone (← Std.Time.Timestamp.now) Std.Time.TimeZone.UTC
  return (now.format "uuuu-MM-dd'T'HH:mm:ss'Z'").toList

end Program

end AsmListing

open AsmListing in
def main (arguments : List String) : IO UInt32 := do
  let loose (s : String) : LooseText := s
  let directory := FilePath.ofText (loose (← IO.currentDir).toString)
  let namedRoot := (← IO.getEnv "ASMSPLIT_ROOT").map loose
  let surroundings : Surroundings := ⟨directory, namedRoot, none, ← Program.clock⟩
  let arguments := arguments.map loose
  let before ← Program.image surroundings arguments
  let outcome := Program.run surroundings before arguments
  Program.bring before outcome.disk
  IO.print (String.ofList outcome.output)
  IO.eprint (String.ofList outcome.errors)
  match outcome.escaped with
  | some failure => IO.eprintln (String.ofList failure.message.escaped)
  | none => pure ()
  return UInt32.ofNat outcome.exitCode.toNat
