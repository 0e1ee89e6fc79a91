import AsmListing.Store.Basic

/-!
Open buffers: texts of modules that are being edited, over a module store. A buffer that was edited
and not saved since is dirty.
-/
namespace AsmListing

/-- The texts of the open modules, and the dirty ones among them. -/
structure Buffers where
  texts : List (LooseText × LooseText)
  dirty : List LooseText
  deriving DecidableEq, Repr

/-- A module store and the buffers that are open over it. -/
structure Workspace where
  store : Store
  buffers : Buffers
  deriving DecidableEq

namespace Buffers

def empty : Buffers := ⟨[], []⟩

variable (b : Buffers)

def isOpen (module : LooseText) : Bool := (b.texts.lookup module).isSome

def isDirty (module : LooseText) : Bool := b.dirty.contains module

def text (module : LooseText) : Except Failure LooseText :=
  match b.texts.lookup module with
  | some t => .ok t
  | none => .error (.noBuffer module)

def put (module text : LooseText) : List (LooseText × LooseText) :=
  (module, text) :: b.texts.filter fun x => x.1 != module

/-- The buffer holds what the store holds. -/
def opened (module text : LooseText) : Buffers :=
  ⟨b.put module text, b.dirty.filter fun m => m != module⟩

def edited (module text : LooseText) : Buffers :=
  ⟨b.put module text, module :: b.dirty.filter fun m => m != module⟩

def saved (module : LooseText) : Buffers := { b with dirty := b.dirty.filter fun m => m != module }

end Buffers

namespace Workspace

variable (w : Workspace)

/-- A workspace below `root` that has read and opened nothing yet. -/
def fresh (disk : Disk) (root : FilePath) : Workspace := ⟨⟨disk, root, []⟩, Buffers.empty⟩

/-- Fills the buffer of a module from the store. -/
def openModule (module : LooseText) : Except Failure Text × Workspace :=
  match w.store.read module with
  | (.error e, store) => (.error e, { w with store })
  | (.ok text, store) => (.ok text, ⟨store, w.buffers.opened module text⟩)

/-- Changes the text of an open module. -/
def edit (module text : LooseText) : Except Failure Unit × Workspace :=
  if w.buffers.isOpen module then
    (.ok (), { w with buffers := w.buffers.edited module text })
  else (.error (.notOpen module), w)

/-- Writes the text of an open module to the store. -/
def save (module : LooseText) : Except Failure Written × Workspace :=
  match w.buffers.text module with
  | .error e => (.error e, w)
  | .ok text =>
    match w.store.write module text with
    | (.error e, store) => (.error e, { w with store })
    | (.ok written, store) => (.ok written, ⟨store, w.buffers.saved module⟩)

end Workspace

end AsmListing
