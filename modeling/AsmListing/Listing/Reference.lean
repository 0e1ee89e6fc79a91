import AsmListing.Listing.Catalog

/-!
References: the symbols that the lines of a listing name. A line may call a symbol (`jal NAME`),
note the symbol of a word of data (`@ =NAME`), or load an address (`la`, `add...` or `move...`
with `=NAME` among its operands).
-/
namespace AsmListing

namespace Reference

/-- The symbol of a data note at the very beginning of `t`. -/
def noted? (t : Text) : Option Text :=
  match t with
  | '@' :: rest =>
    match rest.dropWhile isBlank with
    | '=' :: operand => leadingWord? operand
    | _ => none
  | _ => none

/-- The word behind the last equals sign that has one directly behind it, else `found`. -/
def lastOperand (found : Option Text) : Text → Option Text
  | [] => found
  | c :: rest =>
    if c = '=' then
      match leadingWord? rest with
      | some name => lastOperand (some name) rest
      | none => lastOperand found rest
    else lastOperand found rest

/-- The beginnings of the mnemonics that load an address. -/
def addressMnemonics : List Text := ["la", "add", "move"]

/-- The symbol whose address the line loads: the first word is such a mnemonic, a blank follows
it, and the last symbol behind that blank counts, up to the next line feed. -/
def loaded? (line : Text) : Option Text :=
  if addressMnemonics.any fun m => List.isPrefixOf m line then
    match line.dropWhile isWord with
    | c :: operands =>
      if isBlank c then lastOperand none (operands.takeWhile fun d => d != '\n') else none
    | [] => none
  else none

/-- The symbol that the line calls. -/
def called? (line : Text) : Option Text := firstFoundAtEdge (operand? "jal") false line

/-- The symbols of a line: called, noted, loaded, in this order. -/
def ofLine (line : Text) : List Text :=
  let t := line.trim
  (called? t).toList ++ (firstFound noted? t).toList ++ (loaded? t).toList

end Reference

namespace Listing

/-- The symbols that any line names, each once, in order. -/
def references (ls : Listing) : List Text :=
  Text.sortUnique (ls.flatMap fun l => Reference.ofLine l.content)

end Listing

/-- The symbols that a text names, each once, in order. -/
def Text.references (t : Text) : List Text := (Listing.ofText t).references

namespace Listing

/-- The symbols that the routines of one name refer to, each once, in order. -/
def referencesOf (routines : List Routine) (name : Text) : List Text :=
  Text.sortUnique ((routines.filter (·.name == name)).flatMap fun r => r.code.references)

/-- For each routine name, in order of first appearance, the symbols it refers to. -/
def routineReferences (ls : Listing) : List (Text × List Text) :=
  let routines := ls.routines
  (routines.map Routine.name).eraseDups.map fun name => (name, referencesOf routines name)

end Listing

end AsmListing
