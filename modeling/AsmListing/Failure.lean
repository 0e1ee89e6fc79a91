import AsmListing.Disk.Basic
import AsmListing.Json.Reader

/-!
Failures: why an operation was refused, what the user is told, and the exit code of a program that
ends with it.
-/
namespace AsmListing

/-- Why a module could not be read or written. -/
inductive ModuleFault where
  | unreadable (module : LooseText) (cause : DiskFault)
  | unwritable (module : LooseText) (cause : DiskFault)
  | unencodable (module : LooseText) (encoding : Encoding) (cause : EncodeFault)
  | stated (message : LooseText)
  deriving DecidableEq, Repr

/-- Why a configuration is no configuration. -/
inductive ConfigFault where
  | unreadable (path : LooseText) (cause : DiskFault)
  | malformed (path : LooseText) (source : Text) (cause : JsonFault)
  | noObject (path : LooseText)
  | badExtensions
  | badExclude
  | badCollapse
  | stated (message : LooseText)
  deriving DecidableEq, Repr

/-- Why an operation was refused. -/
inductive Failure where
  /-- A failure with a message and an exit code of its own. -/
  | stated (message : LooseText) (code : Int)
  /-- No such routine in the module, if one is given; `close` lists the names like it where these
  were looked for. -/
  | functionNotFound (name : LooseText) (module : Option LooseText)
    (close : Option (List LooseText))
  | moduleAccess (fault : ModuleFault)
  | badConfig (fault : ConfigFault)
  /-- A refused call that is not about a module. -/
  | disk (fault : DiskFault)
  | undecodable (fault : Utf8Fault)
  /-- Settings that go beyond a limit of the JSON reader. -/
  | excessive (e : JsonExcess)
  /-- An edit of a module that has no buffer. -/
  | notOpen (module : LooseText)
  /-- A question for the buffer of a module that has none. -/
  | noBuffer (module : LooseText)
  /-- A path that no disk takes. -/
  | badPath (flaw : PathFlaw)
  /-- Output that has no bytes. -/
  | unprintable (fault : EncodeFault)
  deriving DecidableEq, Repr

namespace ModuleFault

/-- A module that could not be accessed in the given manner. -/
def about (verb : Text) (module : LooseText) : LooseText :=
  "Cannot " ++ verb ++ " assembly file \"" ++ module ++ "\""

def message : ModuleFault → LooseText
  | .unreadable module cause => about "read" module ++ ": " ++ cause.message
  | .unwritable module cause => about "write" module ++ ": " ++ cause.message
  | .unencodable module encoding cause =>
    about "write" module ++ " as " ++ encoding.name ++ ": " ++ cause.message
  | .stated message => message

end ModuleFault

namespace ConfigFault

def message : ConfigFault → LooseText
  | .unreadable path cause => "Cannot read " ++ path ++ ": " ++ cause.message
  | .malformed path source cause => "Cannot read " ++ path ++ ": " ++ cause.message source
  | .noObject path => path ++ " must contain a JSON object"
  | .badExtensions => "'extensions' must be a list of strings"
  | .badExclude => "'exclude' must be a list of strings"
  | .badCollapse => "'collapse_blank_lines' must be true or false"
  | .stated message => message

end ConfigFault

namespace Failure

/-- The sentence that a routine was not found; an empty module name is left out. -/
def notFoundSentence (name : LooseText) (module : Option LooseText) : LooseText :=
  let place : LooseText := match module with
    | some (c :: m) => " in assembly file \"" ++ (c :: m) ++ "\""
    | _ => []
  "Function \"" ++ name ++ "\" not found" ++ place

/-- The lines of advice below that sentence. -/
def advice (module : Option LooseText) (close : List LooseText) : List LooseText :=
  (if close.isEmpty then []
    else [("  Did you mean: " : LooseText) ++ LooseText.joinWith ", " close ++ "?"]) ++
  [("  Tip: Run `asmsplit list " : LooseText) ++ module.getD [] ++ "` to see every function."]

def message : Failure → LooseText
  | .stated message _ => message
  | .functionNotFound name module none => notFoundSentence name module
  | .functionNotFound name module (some close) =>
    LooseText.joinWith ['\n'] (notFoundSentence name module :: advice module close)
  | .moduleAccess fault => fault.message
  | .badConfig fault => fault.message
  | .disk fault => fault.message
  | .undecodable fault => fault.message
  | .excessive e => e.message
  | .notOpen module => module ++ " is not open"
  | .noBuffer module => module
  | .badPath flaw => flaw.message
  | .unprintable fault => fault.message

/-- The exit code of a program that reports the failure; some failures are not reported but end
the program where they arise. -/
def exitCode? : Failure → Option Int
  | .stated _ code => some code
  | .functionNotFound .. => some 3
  | .moduleAccess _ => some 4
  | .badConfig _ => some 2
  | .disk _ | .undecodable _ | .excessive _ | .notOpen _ | .noBuffer _ | .badPath _
  | .unprintable _ => none

end Failure

/-- What an exit code of the program means. -/
def exitCodeMeaning? : Int → Option Text
  | 0 => some "success"
  | 1 => some "unexpected error"
  | 2 => some "invalid usage (bad arguments, flags or config)"
  | 3 => some "function not found in module"
  | 4 => some "module could not be read or written"
  | _ => none

end AsmListing
