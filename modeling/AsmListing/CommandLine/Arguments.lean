import AsmListing.Suggestion
import AsmListing.Codec.FileName
import AsmListing.Text.Printable

/-!
Arguments of a command: options in any order, and the operands that remain. Two hyphens end the
options; a command that takes another command behind it ends them at its first operand.
-/
namespace AsmListing

/-- What is wrong with the arguments of a command. -/
inductive UsageFault where
  /-- No such option; `close` lists the names of options like it. -/
  | unknownOption (name : LooseText) (close : List LooseText)
  | missingValue (name : LooseText)
  | needlessValue (name : LooseText)
  | missingOperand (name : LooseText)
  | extraOperands (operands : List LooseText)
  | missingCommand
  | unknownCommand (name : LooseText)
  | rootIsFile (path : LooseText)
  | rootIsUnreadable (path : LooseText)
  deriving DecidableEq, Repr

namespace UsageFault

/-- The known names like a name that is none of them, at most three, in order. -/
def alike (name : LooseText) (known : List LooseText) : List LooseText :=
  LooseText.sort (Suggestion.closest 3 name known)

/-- The hint at the names that may have been meant. -/
def hint : List LooseText → Text
  | [] => []
  | [name] => " Did you mean " ++ name.quoted ++ ['?']
  | names =>
    " (Did you mean one of: " ++ Text.joinWith ", " (names.map LooseText.quoted) ++ ['?', ')']

/-- A root for the workspace that is not fit for it. -/
def badRoot (path : LooseText) (flaw : Text) : Text :=
  "Invalid value for '--root': Directory " ++ (FileName.readable path).quoted ++ ' ' :: flaw ++
    ['.']

def message : UsageFault → LooseText
  | unknownOption name close => "No such option " ++ name.quoted ++ "." ++ hint close
  | missingValue name => "Option " ++ name.quoted ++ " requires an argument."
  | needlessValue name => "Option " ++ name.quoted ++ " does not take a value."
  | missingOperand name => "Missing argument '" ++ name ++ "'."
  | extraOperands operands =>
    let plural : Text := if operands.length = 1 then "" else "s"
    "Got unexpected extra argument" ++ plural ++ " (" ++ LooseText.joinWith [' '] operands ++ ")"
  | missingCommand => "Missing command."
  | unknownCommand name => "No such command " ++ name.quoted ++ "."
  | rootIsFile path => badRoot path "is a file"
  | rootIsUnreadable path => badRoot path "is not readable"

/-- The message comes with a reminder of the usage. -/
def showsUsage : UsageFault → Bool
  | missingValue _ | needlessValue _ => false
  | _ => true

end UsageFault

/-- The options that a command knows. -/
structure OptionTable where
  /-- Long names; those with `true` take a value. -/
  long : List (LooseText × Bool)
  /-- Letters that stand for long names without a value. -/
  short : List (CodePoint × LooseText)
  /-- Options may follow operands. -/
  interspersed : Bool
  deriving DecidableEq, Repr

/-- The options given, in order and with their values, and the operands. -/
structure Arguments where
  options : List (LooseText × Option LooseText)
  operands : List LooseText
  deriving DecidableEq, Repr

namespace Arguments

def empty : Arguments := ⟨[], []⟩

def addOptions (options : List (LooseText × Option LooseText)) (a : Arguments) : Arguments :=
  { a with options := options ++ a.options }

def addOperands (operands : List LooseText) (a : Arguments) : Arguments :=
  { a with operands := operands ++ a.operands }

/-- The option was given. -/
def has (a : Arguments) (name : LooseText) : Bool := a.options.any fun o => o.1 == name

/-- The value that was given last. -/
def value? (a : Arguments) (name : LooseText) : Option LooseText :=
  ((a.options.filter fun o => o.1 == name).getLast?).bind Prod.snd

/-- Which of the named options was given last. -/
def last? (a : Arguments) (names : List LooseText) : Option LooseText :=
  ((a.options.filter fun o => names.contains o.1).getLast?).map Prod.fst

/-- What ends the options, and what the long ones begin with. -/
def twoHyphens : LooseText := "--"

/-- What an argument that begins with a hyphen asks for. -/
inductive Demand where
  /-- Options without values, or with the one that is part of the argument. -/
  | given (options : List (LooseText × Option LooseText))
  /-- An option whose value is the next argument. -/
  | valueOf (name : LooseText)
  deriving DecidableEq, Repr

/-- The options that the letters of an argument stand for. -/
def cluster (table : OptionTable) :
    LooseText → Except UsageFault (List (LooseText × Option LooseText))
  | [] => .ok []
  | letter :: rest =>
    match table.short.lookup letter with
    | some name => (cluster table rest).map ((name, none) :: ·)
    | none => .error (.unknownOption [.char '-', letter] [])

/-- Reads one argument that begins with a hyphen. The name goes up to the first equals sign, and
what follows that is the value. -/
def demand (table : OptionTable) (argument : LooseText) : Except UsageFault Demand :=
  let name := argument.takeWhile fun c => c != .char '='
  let value := match argument.drop name.length with
    | _ :: v => some v
    | [] => none
  match table.long.lookup name, value with
  | some true, some v => .ok (.given [(name, some v)])
  | some true, none => .ok (.valueOf name)
  | some false, some _ => .error (.needlessValue name)
  | some false, none => .ok (.given [(name, none)])
  | none, _ =>
    if List.isPrefixOf twoHyphens argument then
      .error (.unknownOption name (UsageFault.alike name (table.long.map Prod.fst)))
    else (cluster table (argument.drop 1)).map .given

/-- Sorts the arguments of a command into options and operands. -/
def parse (table : OptionTable) : List LooseText → Except UsageFault Arguments
  | [] => .ok empty
  | argument :: rest =>
    if argument = twoHyphens then .ok (empty.addOperands rest)
    else if argument.head? = some (.char '-') ∧ 1 < argument.length then
      match demand table argument with
      | .error e => .error e
      | .ok (.given options) => (parse table rest).map (addOptions options)
      | .ok (.valueOf name) =>
        match rest with
        | [] => .error (.missingValue name)
        | v :: rest => (parse table rest).map (addOptions [(name, some v)])
    else if table.interspersed then (parse table rest).map (addOperands [argument])
    else .ok (empty.addOperands (argument :: rest))

/-- Gives each operand its name, in order; the names with `true` must have one. -/
def assign (names : List (LooseText × Bool)) (operands : List LooseText) :
    Except UsageFault (List (LooseText × LooseText)) :=
  match names, operands with
  | (name, _) :: names, o :: operands => (assign names operands).map ((name, o) :: ·)
  | (name, true) :: _, [] => .error (.missingOperand name)
  | (_, false) :: names, [] => assign names []
  | [], [] => .ok []
  | [], extra => .error (.extraOperands extra)

end Arguments

end AsmListing
