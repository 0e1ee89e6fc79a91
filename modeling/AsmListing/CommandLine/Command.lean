import AsmListing.CommandLine.Arguments
import AsmListing.Settings.Edit
import AsmListing.Text.Word

/-!
The commands of the program and how they are asked for on its command line.
-/
namespace AsmListing

/-- What every command is told in front of its name. -/
structure GlobalOptions where
  json : Bool
  root : Option LooseText
  verbose : Bool
  deriving DecidableEq, Repr

/-- A command with what it needs to know. -/
inductive Command where
  /-- List the routines of a module. -/
  | list (module : LooseText) (code full : Bool)
  /-- Print the text of one routine. -/
  | extract (module name : LooseText)
  /-- List the symbols that one routine, or each of them, refers to. -/
  | calls (module : LooseText) (name : Option LooseText)
  /-- Remove a routine from a module. -/
  | remove (module name : LooseText) (dryRun : Bool)
  /-- Show which routines refer to which, in a module or a directory. -/
  | deps (path : LooseText) (function : Option LooseText) (order full : Bool)
  /-- Change or show the settings of the workspace. -/
  | config (edit : SettingsEdit) (display : Bool)
  deriving DecidableEq, Repr

/-- Why arguments name no command to run. -/
inductive Stop where
  /-- The arguments of the named command, or of the program itself, are wrong. -/
  | usage (command : Option LooseText) (fault : UsageFault)
  /-- The version was asked for. -/
  | version
  /-- Help was asked for. -/
  | help (command : Option LooseText)
  /-- The arguments could not be looked at to the end. -/
  | failed (failure : Failure)
  deriving DecidableEq, Repr

/-- How a command is called: its name, its options, of which those with `true` take a value, its
operands, of which those with `true` have to be there, and the command that these make. -/
structure CommandForm where
  name : LooseText
  options : List (LooseText × Bool)
  operands : List (LooseText × Bool)
  build : Arguments → List (LooseText × LooseText) → Command

namespace CommandForm

/-- The operand of the given name, empty if there is none. -/
def operand (operands : List (LooseText × LooseText)) (name : LooseText) : LooseText :=
  (operands.lookup name).getD []

def module : LooseText := "MODULE"

def function : LooseText := "NAME"

def path : LooseText := "PATH"

def list : CommandForm where
  name := "list"
  options := [("--code", false), ("--full", false)]
  operands := [(module, true)]
  build a o := .list (operand o module) (a.has "--code") (a.has "--full")

def extract : CommandForm where
  name := "show"
  options := []
  operands := [(module, true), (function, true)]
  build _ o := .extract (operand o module) (operand o function)

def calls : CommandForm where
  name := "calls"
  options := []
  operands := [(module, true), (function, false)]
  build _ o := .calls (operand o module) (SettingsEdit.asked (o.lookup function))

def remove : CommandForm where
  name := "remove"
  options := [("--dry-run", false)]
  operands := [(module, true), (function, true)]
  build a o := .remove (operand o module) (operand o function) (a.has "--dry-run")

def deps : CommandForm where
  name := "deps"
  options := [("--function", true), ("--order", false), ("--full", false)]
  operands := [(path, true)]
  build a o := .deps (operand o path) (SettingsEdit.asked (a.value? "--function"))
    (a.has "--order") (a.has "--full")

/-- The options that settle the treatment of blank lines; the last one given counts. -/
def collapseOptions : List (LooseText × Bool) :=
  [("--collapse-blank-lines", true), ("--keep-blank-lines", false)]

def config : CommandForm where
  name := "config"
  options := [("--add-extension", true), ("--remove-extension", true), ("--exclude", true),
    ("--remove-exclude", true), ("--collapse-blank-lines", false), ("--keep-blank-lines", false),
    ("--show", false)]
  operands := []
  build a _ := .config
    { addExtension := a.value? "--add-extension"
      removeExtension := a.value? "--remove-extension"
      addExclude := a.value? "--exclude"
      removeExclude := a.value? "--remove-exclude"
      collapse := (a.last? (collapseOptions.map Prod.fst)).bind fun o => collapseOptions.lookup o }
    (a.has "--show")

def all : List CommandForm := [list, extract, calls, remove, deps, config]

def named? (name : LooseText) : Option CommandForm := all.find? (·.name == name)

/-- The operands as a usage line shows them; brackets stand around those that may be missing. -/
def operandPatterns (form : CommandForm) : List LooseText :=
  form.operands.map fun (o, required) => if required then o else "[" ++ o ++ "]"

/-- Reads the arguments behind the name of the command. -/
def parse (form : CommandForm) (arguments : List LooseText) : Except Stop Command :=
  match Arguments.parse ⟨("--help", false) :: form.options, [], true⟩ arguments with
  | .error e => .error (.usage (some form.name) e)
  | .ok a =>
    if a.has "--help" then .error (.help (some form.name))
    else
      match Arguments.assign form.operands a.operands with
      | .error e => .error (.usage (some form.name) e)
      | .ok operands => .ok (form.build a operands)

end CommandForm

namespace UsageFault

/-- What follows the name of the program in its usage line, or in that of one of its commands. -/
def usageTail (command : Option LooseText) : LooseText :=
  match command.bind CommandForm.named? with
  | none => "[OPTIONS] COMMAND [ARGS]..."
  | some form => LooseText.joinWith [' '] ([form.name, "[OPTIONS]"] ++ form.operandPatterns)

/-- The program, or one of its commands, as it is called. -/
def calledAs : Option LooseText → LooseText
  | none => "asmsplit"
  | some name => "asmsplit " ++ name

/-- A fault in the arguments as the user is told of it. -/
def report (command : Option LooseText) (fault : UsageFault) : LooseText :=
  let reminder : LooseText :=
    "Usage: asmsplit " ++ usageTail command ++ "\nTry '" ++ calledAs command ++
      " --help' for help.\n\n"
  (if fault.showsUsage then reminder else []) ++ "Error: " ++ fault.message ++ "\n"

end UsageFault

/-- The arguments of the program, with the options in front of the command sorted out. -/
structure Call where
  options : GlobalOptions
  rest : List LooseText
  deriving DecidableEq, Repr

namespace Call

/-- The options in front of the name of a command. -/
def optionTable : OptionTable where
  long := [("--json", false), ("--root", true), ("--verbose", false), ("--version", false),
    ("--help", false)]
  short := [(.char 'v', "--verbose")]
  interspersed := false

/-- A wish that goes before everything but a wrong option. -/
def wish? (a : Arguments) : Option Stop :=
  a.options.findSome? fun (name, _) =>
    if name = "--version" then some .version
    else if name = "--help" then some (.help none)
    else none

/-- Reads the options in front of the command; `check` refuses a path that is unfit as a root. -/
def parse (check : LooseText → Except Stop Unit) (arguments : List LooseText) :
    Except Stop Call :=
  match Arguments.parse optionTable arguments with
  | .error e => .error (.usage none e)
  | .ok a =>
    match wish? a with
    | some stop => .error stop
    | none =>
      let root := a.value? "--root"
      match root.forM check with
      | .error stop => .error stop
      | .ok () => .ok ⟨⟨a.has "--json", root, a.has "--verbose"⟩, a.operands⟩

/-- The word begins like no name, so it may be a misplaced option. -/
def mayBeOption (word : LooseText) : Bool :=
  match word.head? with
  | some (.char c) => !isWord c || c == '_'
  | some (.surrogate _) => true
  | none => false

/-- The command that the arguments ask for, with the options in front of it. A word that is no
command is looked at once more as an option. -/
def resolve (check : LooseText → Except Stop Unit) (arguments : List LooseText) :
    Except Stop (GlobalOptions × Command) :=
  if arguments.isEmpty then .error (.help none)
  else
    match parse check arguments with
    | .error stop => .error stop
    | .ok call =>
      match call.rest with
      | [] => .error (.usage none .missingCommand)
      | name :: rest =>
        match CommandForm.named? name with
        | some form => (form.parse rest).map fun command => (call.options, command)
        | none =>
          match if mayBeOption name then parse check call.rest else .ok call with
          | .error stop => .error stop
          | .ok _ => .error (.usage none (.unknownCommand name))

end Call

end AsmListing
