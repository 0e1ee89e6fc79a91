import AsmListing.Failure

/-!
The root of a workspace: a directory that is named explicitly, else the nearest directory upwards
that holds the marks of a workspace.
-/
namespace AsmListing

namespace WorkspaceRoot

/-- The directory with the settings of a workspace. -/
def settingsDirectory : LooseText := ".asmsplit"

/-- What version control leaves in the root of a workspace, as a directory or a file. -/
def versionControlEntry : LooseText := ".git"

/-- The directory bears a mark of a workspace root. -/
def isMarked (d : Disk) (directory : FilePath) : Except DiskFault Bool :=
  match d.probe (directory.child settingsDirectory) with
  | .error e => .error e
  | .ok (some (.directory _)) => .ok true
  | .ok _ => (d.probe (directory.child versionControlEntry)).map Option.isSome

/-- The nearest marked directory among `parts`, the last one first, and those above; the root of the
tree is left out. -/
def nearest (d : Disk) : List LooseText → Except DiskFault (Option FilePath)
  | [] => .ok none
  | reversedParts@(_ :: above) =>
    let directory : FilePath := ⟨.root, reversedParts.reverse⟩
    match isMarked d directory with
    | .error e => .error e
    | .ok true => .ok (some directory)
    | .ok false => nearest d above

/-- The absolute path of a directory, seen from another one. -/
def absolute (directory path : FilePath) : Except Failure FilePath :=
  (directory.resolve path).mapError .badPath

/-- The workspace root for work in `start`, a path seen from `directory`; a root that is `named`
and not empty goes before all others. -/
def find (d : Disk) (directory : FilePath) (named : Option LooseText) (start : FilePath) :
    Except Failure FilePath :=
  match named with
  | some (c :: rest) => absolute directory (FilePath.ofText (c :: rest))
  | _ =>
    match absolute directory start with
    | .error e => .error e
    | .ok here =>
      match nearest d here.parts.reverse with
      | .error e => .error (.disk e)
      | .ok found => .ok (found.getD here)

end WorkspaceRoot

end AsmListing
