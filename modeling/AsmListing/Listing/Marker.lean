import AsmListing.Listing.Basic
import AsmListing.Text.Word

/-!
Markers: what a line of a listing says about routines. A routine is declared by `glabel NAME`,
its size by `.size NAME`; alignment directives and jumps to a register may end one, and a plain
label may begin one that has no declaration.
-/
namespace AsmListing

/-- What a line says about routines. -/
inductive Marker where
  | start (name : Text)
  | size (name : Text)
  | align
  | ret
  | label (name : Text)
  | plain
  deriving DecidableEq, Repr, Inhabited

namespace Marker

/-- The name that the line carries, if its kind has one. -/
def name? : Marker → Option Text
  | .start n | .size n | .label n => some n
  | _ => none

def isStart : Marker → Bool
  | .start _ => true
  | _ => false

/-- A size or alignment directive: data that follows the code of a routine. -/
def isData : Marker → Bool
  | .size _ | .align => true
  | _ => false

def isRet : Marker → Bool
  | .ret => true
  | _ => false

/-- May end a routine whose own size is not given. -/
def isTerminator (m : Marker) : Bool := m.isData || m.isRet

end Marker

/-- The run of word characters in front, unless it is empty. -/
def leadingWord? (t : Text) : Option Text :=
  match t.takeWhile isWord with
  | [] => none
  | name => some name

/-- The name behind `keyword` and at least one blank, where the text begins with these. -/
def operand? (keyword t : Text) : Option Text :=
  if keyword.isPrefixOf t then
    match t.drop keyword.length with
    | [] => none
    | c :: rest => if isBlank c then leadingWord? (rest.dropWhile isBlank) else none
  else none

/-- What `read` finds at the first place of the text where it finds anything. -/
def firstFound (read : Text → Option Text) : Text → Option Text
  | [] => none
  | c :: rest =>
    match read (c :: rest) with
    | some name => some name
    | none => firstFound read rest

/-- What `read` finds at the first place that has no word character before it; `behindWord` says
whether one stands before the whole text. -/
def firstFoundAtEdge (read : Text → Option Text) (behindWord : Bool) : Text → Option Text
  | [] => none
  | c :: rest =>
    match if behindWord then none else read (c :: rest) with
    | some name => some name
    | none => firstFoundAtEdge read (isWord c) rest

namespace Marker

/-- The name declared on a line. -/
def startName? (line : Text) : Option Text := firstFoundAtEdge (operand? "glabel") false line

/-- The name whose size a line gives. -/
def sizeName? (line : Text) : Option Text := firstFound (operand? ".size") line

/-- The name of a label at the very beginning of a line. -/
def labelName? (line : Text) : Option Text :=
  match line.dropWhile isWord with
  | ':' :: _ => leadingWord? line
  | _ => none

def isAlignLine (line : Text) : Bool := line == ".align 3"

def isRetLine (line : Text) : Bool := List.isPrefixOf ("jr " : Text) line

/-- The marker of a line without blanks around it. A declaration goes before a size, a size before
an alignment, then come jumps and labels. -/
def ofTrimmed (line : Text) : Marker :=
  match startName? line with
  | some n => .start n
  | none =>
    match sizeName? line with
    | some n => .size n
    | none =>
      if isAlignLine line then .align
      else if isRetLine line then .ret
      else match labelName? line with
        | some n => .label n
        | none => .plain

/-- The marker of a line; blanks at its ends do not matter. -/
def ofLine (line : Text) : Marker := ofTrimmed line.trim

end Marker

namespace Listing

/-- The marker of each line. -/
def markers (ls : Listing) : List Marker := ls.map fun l => Marker.ofLine l.content

/-- The first declared name. -/
def firstName? (ls : Listing) : Option Text :=
  ls.markers.findSome? fun
    | .start n => some n
    | _ => none

end Listing

end AsmListing
