import AsmListing.Listing.Removal
import AsmListing.Store.Buffers

/-!
Removal of a routine from a module of a workspace: the module is read, its new text is written and,
if its buffer is dirty, the buffer is saved.
-/
namespace AsmListing

/-- How a removal is carried out. -/
structure RemovalMode where
  /-- Only plan it. -/
  dryRun : Bool
  /-- Collapse runs of line breaks. -/
  collapse : Bool
  /-- Save the buffer of the module afterwards, if it is dirty. -/
  buffers : Bool
  deriving DecidableEq, Repr

/-- A finished removal, with the writes that it took. -/
structure RemovalReport where
  removal : Removal
  written : Option Written
  saved : Option Written
  deriving DecidableEq, Repr

namespace Workspace

variable (w : Workspace)

/-- The removal as it would be done on the text of the module, and the workspace after reading
it. -/
def planRemoval (module name : LooseText) (collapse : Bool) : Except Failure Removal × Workspace :=
  match w.store.read module with
  | (.error e, store) => (.error e, { w with store })
  | (.ok text, store) =>
    match name.text?.bind (Removal.plan? collapse text) with
    | none => (.error (.functionNotFound name (some module) none), { w with store })
    | some removal => (.ok removal, { w with store })

/-- Writes the new text of the module, then saves its buffer if that is wanted and it is dirty. -/
def carryOut (module : LooseText) (removal : Removal) (buffers : Bool) :
    Except Failure RemovalReport × Workspace :=
  match w.store.write module removal.text with
  | (.error e, store) => (.error e, { w with store })
  | (.ok written, store) =>
    let done : Workspace := { w with store }
    if buffers && done.buffers.isDirty module then
      match done.save module with
      | (.error e, after) => (.error e, after)
      | (.ok saved, after) => (.ok ⟨removal, some written, some saved⟩, after)
    else (.ok ⟨removal, some written, none⟩, done)

/-- Removes the routine `name` from a module. -/
def removeRoutine (module name : LooseText) (mode : RemovalMode) :
    Except Failure RemovalReport × Workspace :=
  match w.planRemoval module name mode.collapse with
  | (.error e, after) => (.error e, after)
  | (.ok removal, after) =>
    if mode.dryRun then (.ok ⟨removal, none, none⟩, after)
    else after.carryOut module removal mode.buffers

end Workspace

end AsmListing
