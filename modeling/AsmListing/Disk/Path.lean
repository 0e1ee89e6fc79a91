import AsmListing.Codec.FileName

/-!
Paths as they are written: where they begin, and their parts. Empty parts and single dots do not
count; double dots stay until a path is resolved.
-/
namespace AsmListing

/-- The names that lead from the root of the tree to a file or directory, as a disk knows them. -/
abbrev Place := List LooseText

/-- Where a path begins: at the working directory, at the root, or at a root written with exactly
two slashes. -/
inductive Anchor where
  | relative
  | root
  | doubleRoot
  deriving DecidableEq, Repr, Inhabited

def Anchor.toText : Anchor → LooseText
  | .relative => []
  | .root => "/"
  | .doubleRoot => "//"

/-- A path. -/
structure FilePath where
  anchor : Anchor
  parts : List LooseText
  deriving DecidableEq, Repr, Inhabited

namespace FilePath

/-- The part that stays where it is. -/
def stay : LooseText := "."

/-- The part that leads one place back. -/
def back : LooseText := ".."

def ofText (t : LooseText) : FilePath :=
  let slashes := (t.takeWhile fun c => c == .char '/').length
  let anchor := if slashes = 0 then .relative else if slashes = 2 then .doubleRoot else .root
  ⟨anchor, (List.splitOn (.char '/') t).filter fun part => part != [] && part != stay⟩

def toText (p : FilePath) : LooseText :=
  if p.anchor = .relative ∧ p.parts = [] then stay
  else p.anchor.toText ++ LooseText.joinWith ['/'] p.parts

def isAbsolute (p : FilePath) : Bool := p.anchor != .relative

/-- The path `q` as seen from `p`. -/
def join (p q : FilePath) : FilePath :=
  if q.isAbsolute then q else ⟨p.anchor, p.parts ++ q.parts⟩

/-- The path of an entry of the directory `p`. -/
def child (p : FilePath) (name : LooseText) : FilePath := ⟨p.anchor, p.parts ++ [name]⟩

def parent (p : FilePath) : FilePath := ⟨p.anchor, p.parts.dropLast⟩

/-- The last part, empty for a path without parts. -/
def name (p : FilePath) : LooseText := p.parts.getLast?.getD []

/-- A step along an absolute path; double dots lead one part back. -/
def stepLexically (done : List LooseText) (part : LooseText) : List LooseText :=
  if part = back then done.dropLast else done ++ [part]

/-- The parts with every double dot taken together with the part before it. -/
def normalParts (parts : List LooseText) : List LooseText := parts.foldl stepLexically []

/-- The place that an absolute path names, whatever stands there. -/
def target (p : FilePath) : Place := (normalParts p.parts).map FileName.known

/-- Why no disk takes the path. -/
def flaw? (p : FilePath) : Option PathFlaw := p.toText.pathFlaw?

/-- A disk takes the path. -/
def isNameable (p : FilePath) : Bool := p.flaw?.isNone

/-- The flaw that is met first where an absolute path is gone along part by part. -/
def flawOnTheWay? (p : FilePath) : Option PathFlaw :=
  (List.range p.parts.length).findSome? fun n =>
    (⟨.root, normalParts (p.parts.take (n + 1))⟩ : FilePath).flaw?

/-- An absolute path without its double dots, if a disk takes it. -/
def normal (p : FilePath) : Except PathFlaw FilePath :=
  match p.flawOnTheWay? with
  | some flaw => .error flaw
  | none => .ok ⟨.root, normalParts p.parts⟩

/-- The absolute path for one that is seen from `directory`, if a disk takes it. -/
def resolve (directory p : FilePath) : Except PathFlaw FilePath := (directory.join p).normal

/-- The rest of `p` behind `base`, where it begins with that. -/
def relativeTo? (p base : FilePath) : Option FilePath :=
  if p.anchor = base.anchor ∧ base.parts.isPrefixOf p.parts then
    some ⟨.relative, p.parts.drop base.parts.length⟩
  else none

/-- The path relative to `base` where it lies inside, else the whole path. -/
def display (p base : FilePath) : LooseText := ((p.relativeTo? base).getD p).toText

/-- The last suffix of the last part, with its dot. Dots at the beginning of a name begin no
suffix. -/
def suffix (t : LooseText) : LooseText :=
  let backwards := t.reverse.takeWhile fun c => c != .char '/'
  let tail := backwards.takeWhile fun c => c != .char '.'
  match backwards.drop tail.length with
  | [] => []
  | _ :: front => if front.all fun c => c == .char '.' then [] else .char '.' :: tail.reverse

end FilePath

end AsmListing
