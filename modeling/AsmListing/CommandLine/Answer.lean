import AsmListing.Settings.Basic
import AsmListing.Graph.CallGraph
import AsmListing.Listing.Removal
import AsmListing.Report.Table
import AsmListing.Report.Note
import AsmListing.Suggestion
import AsmListing.Store.Removal

/-!
The answers of the commands that only look: what they print for a given disk, and the failures they
end with. An answer is a list of texts that are printed one by one, each on lines of its own.
-/
namespace AsmListing

/-- Where a command runs: the working directory, the workspace root that the surroundings name, the
files that a version control system lists if there is one, and the time. -/
structure Surroundings where
  directory : FilePath
  namedRoot : Option LooseText
  listing : Option (List LooseText)
  clock : Text
  deriving DecidableEq, Repr

/-- What a command knows beside its own arguments. -/
structure Context where
  json : Bool
  /-- The workspace root. -/
  root : FilePath
  /-- The files that a version control system lists, if there is one. -/
  listing : Option (List LooseText)
  clock : Text
  deriving DecidableEq, Repr

/-- The failure to find a routine, with advice on at most five names like the wanted one. -/
def Failure.notFoundIn (name module : LooseText) (text : Text) : Failure :=
  let names := Text.sortUnique (Listing.ofText text).routineNames
  .functionNotFound name (some module) (some (Suggestion.closest 5 name (names.map Text.loose)))

namespace Answer

variable (ctx : Context)

/-- The JSON form of an answer. -/
def enveloped (command : Text) (summary payload : Fields) : List LooseText :=
  [(Report.envelope ctx.clock command summary payload).toSortedText]

/-- The store of a command that has read nothing yet. -/
def store (d : Disk) : Store := ⟨d, ctx.root, []⟩

/-- The note on a file that is not UTF-8. -/
def decodingNotes (e : Encoding) : List Note := if e = .latin1 then [.notUtf8] else []

/-- The text of a module. -/
def moduleText (d : Disk) (module : LooseText) : Attempt Text := do
  let (text, encoding) ← Attempt.ofExcept ((store ctx d).load module)
  Attempt.log (decodingNotes encoding)
  pure text

/-- The names that occur more than once, in order. -/
def duplicates (names : List Text) : List Text :=
  Text.sortUnique (names.filter fun n => decide (1 < names.count n))

def routineFields (code : Bool) (r : Routine) : Fields :=
  let place : Fields :=
    [("name", .text r.name), ("start_line", .nat r.span.first), ("end_line", .nat r.span.last),
      ("line_count", .nat r.span.lineCount)]
  if code then place.put "code" (.text r.code) else place

/-- A range of lines as it is shown: counted from one. -/
def lineRange (s : Span) : Text := Text.ofNat (s.first + 1) ++ '-' :: Text.ofNat (s.last + 1)

/-- The routines of a module. -/
def list (d : Disk) (module : LooseText) (code full : Bool) : Attempt (List LooseText) := do
  let text ← moduleText ctx d module
  let routines := (Listing.ofText text).routines
  if ctx.json then
    let repeated := duplicates (routines.map Routine.name)
    pure (enveloped ctx "list"
      [("functions", .nat routines.length), ("duplicates", .nat repeated.length)]
      [("module", .string module),
        ("functions", .list (routines.map fun r => .object (routineFields code r))),
        ("duplicates", Json.texts repeated)])
  else
    let rows : List (List LooseText) := routines.map fun r =>
      [r.name, lineRange r.span, Text.ofNat r.span.lineCount]
    pure [module ++ "  (" ++ Text.ofNat routines.length ++ " functions)", [],
      Report.table ["name", "lines", "count"] rows (if full then 0 else 50)]

/-- How a name is resolved in a text. No listing holds a name with a surrogate in it. -/
def resolution (text : Text) (name : LooseText) : Resolution :=
  (name.text?.map (Listing.ofText text).resolve).getD .absent

/-- The lines of a routine, or the failure to find it. -/
def routineSpan (module name : LooseText) (text : Text) : Attempt Span := do
  let found := resolution text name
  Attempt.log (found.notes name.characters)
  match found.span? with
  | some span => pure span
  | none => Attempt.fail (.notFoundIn name module text)

/-- The text of one routine. -/
def extract (d : Disk) (module name : LooseText) : Attempt (List LooseText) := do
  let text ← moduleText ctx d module
  let span ← routineSpan module name text
  let code := (Listing.ofText text).block span.first span.last
  if ctx.json then
    pure (enveloped ctx "show" [("lines", .nat span.lineCount)]
      [("module", .string module), ("name", .string name), ("start_line", .nat span.first),
        ("end_line", .nat span.last), ("code", .text code)])
  else pure [code]

/-- The symbols that one routine refers to. -/
def callsOf (d : Disk) (module name : LooseText) : Attempt (List LooseText) := do
  let text ← moduleText ctx d module
  let span ← routineSpan module name text
  let references := ((Listing.ofText text).block span.first span.last).references
  if ctx.json then
    pure (enveloped ctx "calls" [("references", .nat references.length)]
      [("module", .string module), ("name", .string name), ("references", Json.texts references)])
  else
    pure ((name ++ "  (" ++ Text.ofNat references.length ++ " references)") ::
      references.map fun r => Text.loose (' ' :: ' ' :: r))

/-- The symbols that each routine of a module refers to. -/
def callsOfAll (d : Disk) (module : LooseText) : Attempt (List LooseText) := do
  let text ← moduleText ctx d module
  let byRoutine := (Listing.ofText text).routineReferences
  if ctx.json then
    let distinct := (byRoutine.flatMap Prod.snd).eraseDups
    pure (enveloped ctx "calls"
      [("functions", .nat byRoutine.length), ("references", .nat distinct.length)]
      [("module", .string module),
        ("functions", .object (byRoutine.map fun (n, rs) => (n, Json.texts rs)))])
  else
    let shown (references : List Text) : Text :=
      if references.isEmpty then ['-'] else Text.joinWith ", " references
    pure [Report.table ["function", "references"]
      (byRoutine.map fun (n, rs) => [Text.loose n, Text.loose (shown rs)]) 0]

/-- The modules that a path stands for: the path itself or, for a directory, those found in it. -/
def modulePaths [NestingLimit] (d : Disk) (path : LooseText) : Attempt (List LooseText) := do
  let target := (store ctx d).path path
  match d.probe target with
  | .error e => Attempt.fail (.disk e)
  | .ok (some (.directory _)) =>
    let settings ← Attempt.ofExcept (Settings.load d ctx.root)
    match Search.below target (some ctx.root) (Settings.extensions settings)
      (Settings.exclude settings) with
    | .error flaw => Attempt.fail (.badPath flaw)
    | .ok search =>
      let found := search.run d ctx.listing
      Attempt.log (found.tooLarge.map .tooLarge)
      pure (found.found.map fun f => (target.join (FilePath.ofText f)).display ctx.root)
  | .ok _ => pure [path]

/-- The text of one module out of many; a module that cannot be read is skipped with a warning. -/
def textOrSkip (d : Disk) (module : LooseText) : Attempt (List (LooseText × Text)) :=
  let attempt := moduleText ctx d module
  match attempt.result with
  | .ok text => ⟨attempt.notes, .ok [(module, text)]⟩
  | .error (.moduleAccess fault) => ⟨attempt.notes ++ [.skipped module fault.message], .ok []⟩
  | .error e => ⟨attempt.notes, .error e⟩

/-- The modules that a path stands for, with their texts. -/
def modules [NestingLimit] (d : Disk) (path : LooseText) : Attempt (List (LooseText × Text)) := do
  match ← modulePaths ctx d path with
  | [single] => do
    let text ← moduleText ctx d single
    pure [(single, text)]
  | paths =>
    let texts ← paths.mapM (textOrSkip ctx d)
    pure texts.flatten.eraseDups

def located (d : Definition) : LooseText := Report.location d.module (some (d.span.first + 1))

/-- Titled lines, each indented. -/
def indented (title : Text) (items : List Text) (budget : Int) : LooseText :=
  Report.titled (title ++ " (" ++ Text.ofNat items.length ++ "):")
    (items.map fun i => Text.loose (' ' :: ' ' :: i)) budget

/-- What one function calls and what calls it. -/
def neighbours (g : CallGraph) (f : Definition) (budget : Int) : List LooseText :=
  let callees := g.callees f.name
  let callers := g.callers f.name
  if ctx.json then
    enveloped ctx "deps" [("callees", .nat callees.length), ("callers", .nat callers.length)]
      [("name", .text f.name), ("module", .string f.module), ("start_line", .nat f.span.first),
        ("callees", Json.texts callees), ("callers", Json.texts callers)]
  else
    [f.name ++ "  " ++ located f, indented "Calls" callees budget,
      indented "Called by" callers budget]

def definitionFields (g : CallGraph) (f : Definition) : Fields :=
  [("name", .text f.name), ("module", .string f.module), ("start_line", .nat f.span.first),
    ("callees", Json.texts (g.callees f.name)), ("callers", Json.texts (g.callers f.name))]

/-- The whole graph in JSON. -/
def graphFields (g : CallGraph) (modules : List LooseText) (order : Bool) : Fields :=
  let graph : Fields :=
    [("modules", Json.strings (LooseText.sort modules)),
      ("functions", .list (g.definitions.map fun f => .object (definitionFields g f))),
      ("external", Json.texts g.externals), ("cycles", .list ((g.cycles 2).map Json.texts))]
  if order then graph.put "order" (Json.texts g.leafFirst) else graph

def graphSummary (g : CallGraph) (modules : List LooseText) : Fields :=
  [("modules", .nat modules.length), ("functions", .nat g.definitions.length),
    ("edges", .nat g.edges.length), ("external", .nat g.externals.length),
    ("cycles", .nat (g.cycles 2).length)]

/-- The line of totals above a graph. -/
def totals (g : CallGraph) (modules : List LooseText) : Text :=
  Text.ofNat modules.length ++ " modules  |  " ++ Text.ofNat g.definitions.length ++
    " functions  |  " ++ Text.ofNat g.edges.length ++ " references  |  " ++
    Text.ofNat g.externals.length ++ " external"

/-- The table of the functions of a graph. -/
def functionTable (g : CallGraph) (budget : Int) : LooseText :=
  Report.table ["function", "calls", "called-by", "location"]
    (g.definitions.map fun f => [Text.loose f.name, Text.ofNat (g.callees f.name).length,
      Text.ofNat (g.callers f.name).length, located f]) budget

/-- The sections that follow the table where there is something to show. -/
def appendix (g : CallGraph) (budget : Int) : List LooseText :=
  let cycles := (g.cycles 2).map (Text.joinWith " -> ")
  (if g.externals.isEmpty then [] else [[], indented "External symbols" g.externals budget]) ++
    if cycles.isEmpty then [] else [[], indented "Cycles" cycles budget]

/-- Which functions refer to which, in a module or in the modules of a directory. -/
def deps [NestingLimit] (d : Disk) (path : LooseText) (function : Option LooseText)
    (order full : Bool) : Attempt (List LooseText) := do
  let texts ← modules ctx d path
  let g := CallGraph.ofModules texts
  let paths := texts.map Prod.fst
  let budget : Int := if full then 0 else 30
  match function with
  | some name =>
    match name.text?.bind g.find? with
    | some f => pure (neighbours ctx g f budget)
    | none => Attempt.fail (.functionNotFound name (some path) none)
  | none =>
    if ctx.json then
      pure (enveloped ctx "deps" (graphSummary g paths) (graphFields g paths order))
    else
      let head : List LooseText := [totals g paths, []]
      if order then
        pure (head ++ [Report.titled "Leaf-first order:"
          (g.leafFirst.map fun n => Text.loose (' ' :: ' ' :: n)) budget])
      else pure (head ++ functionTable g budget :: appendix g budget)

end Answer

end AsmListing
