import AsmListing.Disk.Basic
import AsmListing.Text.Glob

/-!
Searches for the modules below a directory. A version control system may list the files; without
such a list the directory is walked. Both kinds of list pass through the same filter.
-/
namespace AsmListing

/-- What is searched, and what for. -/
structure Search where
  /-- The directory that is searched, as a resolved path. -/
  root : FilePath
  /-- Suffixes of modules, with their dots. -/
  extensions : List LooseText
  /-- Globs for paths that are left out. -/
  exclude : List LooseText
  /-- Globs are matched against paths relative to this directory. -/
  base : FilePath
  deriving DecidableEq, Repr

/-- The modules found, in order, and the files that were left out only for their size. -/
structure Findings where
  found : List LooseText
  tooLarge : List LooseText
  deriving DecidableEq, Repr

namespace Search

/-- Directories that a walk never enters, beside those whose name begins with a dot. -/
def skippedDirectories : List LooseText := ["build", "dist", "node_modules", "__pycache__", "venv"]

/-- The largest size of a module in bytes. -/
def maxSize : Nat := 8000000

/-- A directory of this name is entered. -/
def enters (name : LooseText) : Bool :=
  !skippedDirectories.contains name && name.head? != some (.char '.')

/-- The parts, below `p`, of the paths to all files that a walk from there comes to. Directories
that cannot be listed or gone through are left out, and those nested deeper than `depth`. -/
def walk (d : Disk) : Nat → Place → List (List LooseText)
  | 0, _ => []
  | depth + 1, p =>
    match d.node? p with
    | none => []
    | some here =>
      if !here.isReadable then []
      else (d.children p).flatMap fun (name, node) =>
        if !node.isDirectory then [[name]]
        else if here.isSearchable && enters name then
          (walk d depth (p ++ [name])).map (name :: ·)
        else []

/-- The paths, relative to the searched directory, of the files below it. -/
def walked (d : Disk) (root : FilePath) : List LooseText :=
  match d.status root with
  | .ok (p, .directory _) => (walk d d.depthBound p).map (LooseText.joinWith ['/'])
  | _ => []

/-- The size that counts against the limit. -/
def size : Node → Nat
  | .file bytes _ => bytes.size
  | .directory _ => 0

/-- The patterns that a version control system is asked for. -/
def patterns (extensions : List LooseText) : List LooseText := extensions.map (.char '*' :: ·)

/-- The search below a directory, given by its absolute path, for files with the given suffixes. The
globs are matched from `base` where there is one, else from the directory itself. There is no search
where no disk takes these paths. -/
def below (root : FilePath) (base : Option FilePath) (extensions exclude : List LooseText) :
    Except PathFlaw Search := do
  let root ← root.normal
  let base ← match base with
    | some path => path.normal
    | none => pure root
  pure ⟨root, extensions, exclude, base⟩

variable (s : Search)

/-- The path that a listed file has on the disk. -/
def fullPath (file : LooseText) : FilePath := s.root.join (FilePath.ofText file)

def hasExtension (file : LooseText) : Bool := s.extensions.contains (FilePath.suffix file)

def isExcluded (file : LooseText) : Bool :=
  s.exclude.any fun pattern => Glob.describes pattern ((s.fullPath file).display s.base)

/-- The suffix of the file is wanted, no glob leaves it out, and it exists. -/
def candidate? (d : Disk) (file : LooseText) : Option Node :=
  if s.hasExtension file && !s.isExcluded file then
    match d.status (s.fullPath file) with
    | .ok (_, n) => some n
    | .error _ => none
  else none

/-- The modules among the listed files; without a list, among those below the directory. -/
def run (d : Disk) (listing : Option (List LooseText)) : Findings :=
  let files := (listing.map (·.filter (· != []))).getD (walked d s.root)
  let sized := files.filterMap fun f => (s.candidate? d f).map fun n => (f, size n)
  let (small, large) := sized.partition fun x => decide (x.2 ≤ maxSize)
  ⟨LooseText.sort (small.map Prod.fst), large.map Prod.fst⟩

end Search

end AsmListing
