import AsmListing.Settings.Root
import AsmListing.Failure
import AsmListing.Json.Printer

/-!
The settings of a workspace: a JSON object in a file below its root, laid over the defaults.
Writing merges updates into that object and keeps what it does not change.
-/
namespace AsmListing

namespace Settings

def fileName : LooseText := "config.json"

def directory (root : FilePath) : FilePath := root.child WorkspaceRoot.settingsDirectory

/-- The file with the settings of the workspace at `root`. -/
def file (root : FilePath) : FilePath := (directory root).child fileName

def extensionsKey : LooseText := "extensions"

def excludeKey : LooseText := "exclude"

def collapseKey : LooseText := "collapse_blank_lines"

/-- The settings that hold where the file gives no others. -/
def defaults : Fields :=
  [(extensionsKey, Json.texts [".s", ".asm", ".S", ".inc"]), (excludeKey, Json.texts []),
    (collapseKey, .bool true)]

/-- The first setting that has a value of the wrong kind. -/
def flaw? (fields : Fields) : Option ConfigFault :=
  if ((fields.get? extensionsKey).bind Json.asTexts?).isNone then some .badExtensions
  else if ((fields.get? excludeKey).bind Json.asTexts?).isNone then some .badExclude
  else if ((fields.get? collapseKey).bind Json.asBool?).isNone then some .badCollapse
  else none

def extensions (fields : Fields) : List LooseText :=
  ((fields.get? extensionsKey).bind Json.asTexts?).getD []

def exclude (fields : Fields) : List LooseText :=
  ((fields.get? excludeKey).bind Json.asTexts?).getD []

def collapse (fields : Fields) : Bool := ((fields.get? collapseKey).bind Json.asBool?).getD true

/-- Keeps settings in which every value is of the right kind. -/
def validate (fields : Fields) : Except Failure Fields :=
  match flaw? fields with
  | some fault => .error (.badConfig fault)
  | none => .ok fields

/-- The object in some bytes that were read from the file at `path`. -/
def parse [NestingLimit] (path : LooseText) (bytes : Bytes) : Except Failure Fields :=
  match Utf8.decode bytes with
  | .error e => .error (.undecodable e)
  | .ok text =>
    let source := text.withLineFeeds
    match Json.ofText source with
    | .error (.fault f) => .error (.badConfig (.malformed path source f))
    | .error (.excess e) => .error (.excessive e)
    | .ok (.object fields) => .ok fields
    | .ok _ => .error (.badConfig (.noObject path))

/-- The object in the file of the workspace, which is empty where there is no file. -/
def stored [NestingLimit] (d : Disk) (root : FilePath) : Except Failure Fields :=
  let path := file root
  match d.probe path with
  | .error e => .error (.disk e)
  | .ok none => .ok []
  | .ok (some _) =>
    match d.read path with
    | .error e => .error (.badConfig (.unreadable path.toText e))
    | .ok bytes => parse path.toText bytes.data.toList

/-- The settings of the workspace at `root`. -/
def load [NestingLimit] (d : Disk) (root : FilePath) : Except Failure Fields :=
  match stored d root with
  | .error e => .error e
  | .ok fields => validate (defaults.putAll fields)

/-- The text of the file that holds `fields`. -/
def render (fields : Fields) : Text := (Json.object fields).toText ++ ['\n']

/-- Makes the directory of the settings unless it is there. -/
def makeDirectory (d : Disk) (root : FilePath) : Except DiskFault Disk :=
  match d.makeDirectory (directory root) with
  | .ok d' => .ok d'
  | .error e =>
    if e.refusal = .noEntry then .error e
    else match d.probe (directory root) with
      | .error f => .error f
      | .ok (some (.directory _)) => .ok d
      | .ok _ => .error e

/-- The disk with a directory for the settings. -/
def prepare (d : Disk) (root : FilePath) : Except Failure Disk :=
  match (directory root).flaw? with
  | some flaw => .error (.badPath flaw)
  | none => (makeDirectory d root).mapError .disk

/-- The fields that the file will hold after the updates, where these and the defaults make valid
settings. -/
def merged [NestingLimit] (d : Disk) (root : FilePath) (updates : Fields) : Except Failure Fields :=
  match stored d root with
  | .error e => .error e
  | .ok fields =>
    let next := fields.putAll updates
    match validate (defaults.putAll next) with
    | .error e => .error e
    | .ok _ => .ok next

/-- Writes the updates into the file of the workspace. The directory is made first and stays even
where the updates are refused. -/
def write [NestingLimit] (d : Disk) (root : FilePath) (updates : Fields) :
    Except Failure FilePath × Disk :=
  match prepare d root with
  | .error e => (.error e, d)
  | .ok prepared =>
    match merged prepared root updates with
    | .error e => (.error e, prepared)
    | .ok fields =>
      match prepared.write (file root) ⟨(Utf8.encode (render fields)).toArray⟩ with
      | .error e => (.error (.disk e), prepared)
      | .ok written => (.ok (file root), written)

end Settings

end AsmListing
