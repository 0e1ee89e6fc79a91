import AsmListing.Listing.Resolution
import AsmListing.Disk.Search
import AsmListing.Store.Basic

/-!
Notes on the progress of a command, and attempts, which take notes on their way and end with an
answer or a failure without changing anything. Warnings are always shown; with the wish for more
detail every note is, with its level and the part of the program it comes from.
-/
namespace AsmListing

inductive NoteLevel where
  | debug
  | info
  | warning
  deriving DecidableEq, Repr

def NoteLevel.name : NoteLevel → Text
  | .debug => "DEBUG"
  | .info => "INFO"
  | .warning => "WARNING"

/-- Something worth telling that is no answer. Lines count from zero. -/
inductive Note where
  | bareLabel (name : Text) (line : Nat)
  | terminator (tier : Tier) (line last : Nat)
  | neverClosed (name : Text) (line : Nat)
  | notUtf8
  | wrote (w : Written)
  | removed (name : Text) (module : LooseText) (span : Span)
  | savedBuffer (module : LooseText)
  | tooLarge (file : LooseText)
  | skipped (module message : LooseText)
  deriving DecidableEq, Repr

def Tier.name : Tier → Text
  | .data => "data"
  | .ret => "return"

namespace Note

def level : Note → NoteLevel
  | .bareLabel .. | .terminator .. | .neverClosed .. | .notUtf8 => .debug
  | .wrote _ | .removed .. | .savedBuffer _ => .info
  | .tooLarge _ | .skipped .. => .warning

/-- The part of the program that a note comes from. -/
def source : Note → Text
  | .bareLabel .. | .terminator .. | .neverClosed .. => "asmsplit.asm.boundary"
  | .notUtf8 | .wrote _ => "asmsplit.workspace.store"
  | .removed .. | .savedBuffer _ => "asmsplit.refactor.transforms"
  | .tooLarge _ => "asmsplit.workspace.discovery"
  | .skipped .. => "asmsplit.commands.cmd_deps"

def message : Note → LooseText
  | .bareLabel name line =>
    "no glabel for " ++ name ++ ", using bare label at line " ++ Text.ofNat line
  | .terminator tier line last =>
    "terminator " ++ tier.name ++ " at line " ++ Text.ofNat line ++ " -> end " ++ Text.ofNat last
  | .neverClosed name line => name ++ " opened at line " ++ Text.ofNat line ++ " but never closed"
  | .notUtf8 => "listing is not UTF-8, decoding as latin-1"
  | .wrote w =>
    "wrote " ++ w.path.toText ++ " (" ++ Text.ofNat w.byteCount ++ " bytes, " ++ w.encoding.name ++
      ")"
  | .removed name module span =>
    "removed " ++ name ++ " from " ++ module ++ " (lines " ++ Text.ofNat span.first ++ "-" ++
      Text.ofNat span.last ++ ")"
  | .savedBuffer module => "saved open buffer for " ++ module
  | .tooLarge file =>
    "skipping " ++ file ++ ": larger than " ++ Text.ofNat Search.maxSize ++ " bytes"
  | .skipped module message => "skipping " ++ module ++ ": " ++ message

/-- The line that shows the note, if it is shown. -/
def line? (verbose : Bool) (n : Note) : Option Text :=
  if verbose then some (n.level.name ++ " " ++ n.source ++ ": " ++ n.message.escaped ++ ['\n'])
  else if n.level = .warning then some (n.message.escaped ++ ['\n'])
  else none

end Note

/-- The notes on how a name was resolved. -/
def Resolution.notes (name : Text) : Resolution → List Note
  | .absent => []
  | .unclosed opening start => openingNotes opening start ++ [.neverClosed name start]
  | .found opening span closing => openingNotes opening span.first ++
    match closing with
    | .beforeNext (some (tier, line)) => [.terminator tier line span.last]
    | _ => []
where
  openingNotes (opening : Opening) (start : Nat) : List Note :=
    match opening with
    | .declaration => []
    | .label => [.bareLabel name start]

/-- The notes taken so far, and the answer or failure. -/
structure Attempt (α : Type) where
  notes : List Note
  result : Except Failure α

namespace Attempt

variable {α β : Type}

def ofExcept (result : Except Failure α) : Attempt α := ⟨[], result⟩

def fail (f : Failure) : Attempt α := ⟨[], .error f⟩

/-- Takes notes. -/
def log (notes : List Note) : Attempt Unit := ⟨notes, .ok ()⟩

/-- Goes on with the answer; after a failure nothing more is done. -/
def andThen (x : Attempt α) (next : α → Attempt β) : Attempt β :=
  match x.result with
  | .error e => ⟨x.notes, .error e⟩
  | .ok a => ⟨x.notes ++ (next a).notes, (next a).result⟩

instance : Monad Attempt where
  pure a := ⟨[], .ok a⟩
  bind := andThen

end Attempt

end AsmListing
