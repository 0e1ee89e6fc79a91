import AsmListing.CommandLine.Answer
import AsmListing.CommandLine.Command

/-!
The commands that may change the disk: the removal of a routine, and the settings. Each gives its
answer together with the disk as it is afterwards.
-/
namespace AsmListing

namespace Change

open Answer (enveloped lineRange)

variable (ctx : Context)

/-- The notes on reading a module and looking a name up in it. -/
def lookupNotes (d : Disk) (module name : LooseText) : List Note :=
  match (Answer.store ctx d).load module with
  | .error _ => []
  | .ok (text, encoding) =>
    Answer.decodingNotes encoding ++ (Answer.resolution text name).notes name.characters

/-- The notes on the writes of a removal. -/
def writeNotes (module : LooseText) (r : RemovalReport) : List Note :=
  match r.written with
  | none => []
  | some w => [.wrote w, .removed r.removal.name module r.removal.span] ++
    match r.saved with
    | none => []
    | some s => [.wrote s, .savedBuffer module]

/-- The result of a removal in JSON. -/
def removalFields (module : LooseText) (r : RemovalReport) : Fields :=
  [("module", .string module), ("name", .text r.removal.name),
    ("start_line", .nat r.removal.span.first), ("end_line", .nat r.removal.span.last),
    ("removed_lines", .nat r.removal.span.lineCount), ("written", .bool r.written.isSome),
    ("buffer_saved", .bool r.saved.isSome)]

/-- What is printed about a removal. -/
def removalReport (module : LooseText) (dryRun : Bool) (r : RemovalReport) : List LooseText :=
  let count := r.removal.span.lineCount
  if ctx.json then
    enveloped ctx "remove" [("removed_lines", .nat count), ("dry_run", .bool dryRun)]
      (removalFields module r)
  else
    let verb : Text := if dryRun then "Would remove " else "Removed "
    (verb ++ r.removal.name ++ " from " ++ module ++ " (lines " ++ lineRange r.removal.span ++
      ", " ++ Text.ofNat count ++ " lines)") ::
      if dryRun then [[], Text.loose r.removal.code] else []

/-- The failure of a removal; where the routine is not found, the module is read once more for
advice. -/
def removalFailure (d : Disk) (module name : LooseText) (e : Failure) :
    Attempt (List LooseText) :=
  match e with
  | .functionNotFound .. => do
    let text ← Answer.moduleText ctx d module
    Attempt.fail (.notFoundIn name module text)
  | other => Attempt.fail other

/-- Removes a routine from a module. -/
def remove [NestingLimit] (d : Disk) (module name : LooseText) (dryRun : Bool) :
    Attempt (List LooseText) × Disk :=
  match Settings.load d ctx.root with
  | .error e => (Attempt.fail e, d)
  | .ok settings =>
    let mode : RemovalMode := ⟨dryRun, Settings.collapse settings, false⟩
    let (result, after) := (Workspace.fresh d ctx.root).removeRoutine module name mode
    let looked : Attempt Unit := Attempt.log (lookupNotes ctx d module name)
    match result with
    | .error e => (looked.andThen fun _ => removalFailure ctx d module name e, after.store.disk)
    | .ok report =>
      (⟨looked.notes ++ writeNotes module report, .ok (removalReport ctx module dryRun report)⟩,
        after.store.disk)

/-- The settings, one a line. -/
def settingsLines (fields : Fields) : List LooseText :=
  let globs := LooseText.joinWith [' '] (Settings.exclude fields)
  let exclude : LooseText := if globs.isEmpty then "(none)" else globs
  let collapse : LooseText := if Settings.collapse fields then "true" else "false"
  ["extensions:            " ++ LooseText.joinWith [' '] (Settings.extensions fields),
    "exclude:               " ++ exclude, "collapse_blank_lines:  " ++ collapse]

/-- What is printed about the settings after updates to them. -/
def settingsReport (updates fields : Fields) (display : Bool) : List LooseText :=
  let path := (Settings.file ctx.root).toText
  let updated := LooseText.sort updates.keys
  if ctx.json then
    enveloped ctx "config" [("updated", .strings updated)]
      [("path", .string path), ("config", .object fields)]
  else
    let head : List LooseText :=
      if updates.isEmpty then []
      else ["Updated " ++ path ++ ": " ++ LooseText.joinWith ", " updated]
    head ++ if display || updates.isEmpty then settingsLines fields else []

/-- Changes the settings as asked, and shows them. -/
def config [NestingLimit] (d : Disk) (edit : SettingsEdit) (display : Bool) :
    Attempt (List LooseText) × Disk :=
  match Settings.load d ctx.root with
  | .error e => (Attempt.fail e, d)
  | .ok current =>
    let updates := edit.updates current
    let answer : Attempt (List LooseText) :=
      pure (settingsReport ctx updates (current.putAll updates) display)
    if updates.isEmpty then (answer, d)
    else
      match Settings.write d ctx.root updates with
      | (.error e, after) => (Attempt.fail e, after)
      | (.ok _, after) => (answer, after)

end Change

end AsmListing
