import AsmListing.Json.Basic

/-!
Reports. In plain text they are tables with aligned columns and titled sections: a budget limits how
many rows are shown, and the last line then says how many are left out. In JSON every answer stands
in an envelope: what was asked, by which version, and a summary, beside the answer's own fields.
-/
namespace AsmListing

namespace Report

/-- The first rows that a budget allows, and how many more there are. No budget, or room for all
rows, shows everything; a negative budget counts the rows that are left out at the end. -/
def withinBudget {α : Type} (budget : Int) (rows : List α) : List α × Option Int :=
  let count : Int := rows.length
  if budget ≠ 0 ∧ budget < count then
    let shown := if budget < 0 then count + budget else budget
    (rows.take shown.toNat, some (count - budget))
  else (rows, none)

/-- The note on rows that are left out. -/
def moreNote (more : Int) : LooseText := ("(+" ++ Text.ofInt more ++ " more)" : Text)

/-- A title with its lines below it. -/
def titled (title : LooseText) (lines : List LooseText) (budget : Int) : LooseText :=
  let (shown, more) := withinBudget budget lines
  LooseText.joinWith ['\n'] (title :: shown ++ (more.map fun n => "  " ++ moreNote n).toList)

/-- A place in a module: its path and, if given, a line number. -/
def location (path : LooseText) (line : Option Int) : LooseText :=
  match line with
  | some n => path ++ (':' :: Text.ofInt n : Text)
  | none => path

/-- What stands in a table. An integer is one of at most 4300 digits: others have no text where the
program shows them. -/
inductive Item where
  | text (t : LooseText)
  | int (i : Int)
  | flag (b : Bool)
  | nothing
  deriving DecidableEq, Repr

def Item.toText : Item → LooseText
  | .text t => t
  | .int i => Text.ofInt i
  | .flag true => "True"
  | .flag false => "False"
  | .nothing => "None"

namespace Table

/-- Column widths that also hold one more row; cells beyond the columns do not count. -/
def widen : List Nat → List LooseText → List Nat
  | w :: ws, cell :: cells => max w cell.length :: widen ws cells
  | ws, [] => ws
  | [], _ :: _ => []

/-- The widths of the columns: the longest cell of each, the header among them. -/
def widths (headers : List LooseText) (rows : List (List LooseText)) : List Nat :=
  rows.foldl widen (headers.map List.length)

/-- The cells of a row, filled up to the widths of their columns. -/
def padded? : List Nat → List LooseText → Option (List LooseText)
  | _, [] => some []
  | [], _ :: _ => none
  | w :: ws, cell :: cells => (padded? ws cells).map (cell.padRight w :: ·)

/-- Cells on one line, two blanks between them. -/
def joined (cells : List LooseText) : LooseText := LooseText.joinWith "  " cells

def row? (ws : List Nat) (cells : List LooseText) : Option LooseText :=
  (padded? ws cells).map joined

/-- The rule below the headers of a table. -/
def rule (ws : List Nat) : LooseText := joined (ws.map fun w => List.replicate w (.char '-'))

end Table

/-- The table of these rows below their headers, or nothing where a row that is shown has more
cells than there are columns. -/
def table? (headers : List LooseText) (rows : List (List Item)) (budget : Int) : Option LooseText :=
  if rows.isEmpty then some "(none)"
  else
    let cells := rows.map (·.map Item.toText)
    let ws := Table.widths headers cells
    let (shown, more) := withinBudget budget cells
    (shown.mapM (Table.row? ws)).bind fun lines =>
      (Table.row? ws headers).map fun head =>
        LooseText.joinWith ['\n']
          (head :: Table.rule ws :: lines ++ (more.map moreNote).toList)

/-- A table whose rows have exactly one cell for each header. -/
def table (headers : List LooseText) (rows : List (List LooseText)) (budget : Int) : LooseText :=
  (table? headers (rows.map (·.map Item.text)) budget).getD []

def schemaName : Text := "asmsplit-envelope-v1"

def schemaVersion : Text := "1.0.0"

/-- The version of the program. -/
def version : Text := "0.3.0"

/-- The envelope of an answer that was made at time `clock`. Fields of the answer go before those
of the envelope, but the time always stands. -/
def envelope (clock command : Text) (summary payload : Fields) : Json :=
  let head : Fields :=
    [("schema", .text schemaName), ("schema_version", .text schemaVersion),
      ("command", .text command), ("version", .text version), ("summary", .object summary)]
  .object ((head.putAll payload).put "_meta" (.object [("timestamp", .text clock)]))

end Report

end AsmListing
