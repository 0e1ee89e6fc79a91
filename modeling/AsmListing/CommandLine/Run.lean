import AsmListing.CommandLine.Change
import AsmListing.Text.ControlSequence

/-!
A run of the program: from its arguments and the disk to its exit code, its output and the disk
afterwards.
-/
namespace AsmListing

/-- The outcome of a run. A failure that is not reported ends the run where it arises. -/
structure Outcome where
  exitCode : Int
  output : Text
  errors : Text
  escaped : Option Failure
  disk : Disk

namespace Program

/-- Runs a command. Only a removal and a change of settings can change the disk. -/
def perform [NestingLimit] (ctx : Context) (d : Disk) : Command → Attempt (List LooseText) × Disk
  | .list module code full => (Answer.list ctx d module code full, d)
  | .extract module name => (Answer.extract ctx d module name, d)
  | .calls module (some name) => (Answer.callsOf ctx d module name, d)
  | .calls module none => (Answer.callsOfAll ctx d module, d)
  | .deps path function order full => (Answer.deps ctx d path function order full, d)
  | .remove module name dryRun => Change.remove ctx d module name dryRun
  | .config edit display => Change.config ctx d edit display

/-- The workspace root: the one given as an option, else the one that is found from the working
directory. -/
def workspaceRoot (s : Surroundings) (d : Disk) (root : Option LooseText) :
    Except Failure FilePath :=
  match SettingsEdit.asked root with
  | some path => WorkspaceRoot.absolute s.directory (FilePath.ofText path)
  | none => WorkspaceRoot.find d s.directory s.namedRoot ⟨.relative, []⟩

/-- The notes that are shown, each on its line. -/
def shown (verbose : Bool) (notes : List Note) : Text :=
  (notes.filterMap (Note.line? verbose)).flatten

/-- Prints texts one by one, without control sequences and each with a line break behind it, up to
the first one that has no bytes. What has been printed comes with the fault of that one. -/
def print : List LooseText → Text × Option EncodeFault
  | [] => ([], none)
  | t :: rest =>
    let plain := t.withoutControlSequences
    match plain.encodeFault? with
    | some fault => ([], some fault)
    | none =>
      let (more, fault) := print rest
      (plain.characters ++ '\n' :: more, fault)

/-- A message as it is shown beside the output, without control sequences and with escapes for what
has no bytes. -/
def complaint (message : LooseText) : Text := message.withoutControlSequences.escaped

/-- The outcome of an attempt that leaves the disk `d`. -/
def finish (verbose : Bool) (attempt : Attempt (List LooseText)) (d : Disk) : Outcome :=
  let notes := shown verbose attempt.notes
  match attempt.result with
  | .ok answer =>
    match print answer with
    | (output, none) => ⟨0, output, notes, none, d⟩
    | (output, some fault) => ⟨1, output, notes, some (.unprintable fault), d⟩
  | .error e =>
    match e.exitCode? with
    | some code => ⟨code, [], notes ++ complaint ("Error: " ++ e.message ++ "\n"), none, d⟩
    | none => ⟨1, [], notes, some e, d⟩

/-- The outcome of arguments that name no command to run. -/
def stopped (d : Disk) : Stop → Outcome
  | .usage command fault => ⟨2, [], complaint (UsageFault.report command fault), none, d⟩
  | .version => ⟨0, "asmsplit, version " ++ Report.version ++ ['\n'], [], none, d⟩
  | .help command =>
    ⟨0, "Usage: asmsplit " ++ (UsageFault.usageTail command).characters ++ ['\n'], [], none, d⟩
  | .failed failure => ⟨1, [], [], some failure, d⟩

/-- What a path leads to as it was typed, seen from `directory`. A slash at its end asks for a
directory, and a dot there for one that can be gone through. -/
def typed? (d : Disk) (directory : FilePath) (path : LooseText) : Option Node :=
  if path.isEmpty || Disk.isOverlong path then none
  else
    let last := (path.reverse.takeWhile fun c => c != .char '/').reverse
    match d.status (directory.join (FilePath.ofText path)) with
    | .error _ => none
    | .ok (_, n) =>
      if last.isEmpty && !n.isDirectory then none
      else if last = FilePath.stay && !(n.isDirectory && n.isSearchable) then none
      else some n

/-- Refuses a path, as it was typed, that is unfit as the root of a workspace. One that leads
nowhere is not refused. -/
def checkRoot (d : Disk) (directory : FilePath) (path : LooseText) : Except Stop Unit :=
  match path.pathFlaw? with
  | some flaw => .error (.failed (.badPath flaw))
  | none =>
    match typed? d directory path with
    | none => .ok ()
    | some n =>
      if !n.isDirectory then .error (.usage none (.rootIsFile path))
      else if !n.isReadable then .error (.usage none (.rootIsUnreadable path))
      else .ok ()

/-- Runs the program. -/
def run [NestingLimit] (s : Surroundings) (d : Disk) (arguments : List LooseText) : Outcome :=
  match Call.resolve (checkRoot d s.directory) arguments with
  | .error stop => stopped d stop
  | .ok (options, command) =>
    match workspaceRoot s d options.root with
    | .error failure => stopped d (.failed failure)
    | .ok root =>
      let ctx : Context := ⟨options.json, root, s.listing, s.clock⟩
      let (attempt, after) := perform ctx d command
      finish options.verbose attempt after

end Program

end AsmListing
