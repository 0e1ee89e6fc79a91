import AsmListing.Proofs.Replacement

/-! The outline of a disk: all but the bytes of its files. Whether a temporary file can be made is
seen from the outline alone, and so a file that was replaced can be replaced again. -/
namespace AsmListing

/-- The node without the bytes of a file. -/
def Node.outline : Node → Node
  | .file _ m => .file ByteArray.empty m
  | .directory m => .directory m

@[simp] theorem Node.mode_outline (n : Node) : n.outline.mode = n.mode := by
  cases n <;> rfl

@[simp] theorem Node.isDirectory_outline (n : Node) : n.outline.isDirectory = n.isDirectory := by
  cases n <;> rfl

@[simp] theorem Node.isWritable_outline (n : Node) : n.outline.isWritable = n.isWritable := by
  simp [isWritable]

@[simp] theorem Node.isSearchable_outline (n : Node) :
    n.outline.isSearchable = n.isSearchable := by
  simp [isSearchable]

namespace Disk

variable {d d' created : Disk} {p q : Place} {n : Node} {path temporary : FilePath} {mode : Nat}
  {bytes : ByteArray}

/-- The disk without the bytes of its files. -/
def outline (d : Disk) : Disk :=
  { d with entries := d.entries.map fun e => (e.1, e.2.outline) }

theorem lookup_map_outline (p : Place) (es : List (Place × Node)) :
    (es.map fun e => (e.1, e.2.outline)).lookup p = (es.lookup p).map Node.outline := by
  induction es with
  | nil => rfl
  | cons e es ih =>
    rw [List.map_cons, List.lookup_cons, List.lookup_cons, ih]
    cases p == e.1 <;> rfl

@[simp] theorem node?_outline (d : Disk) (p : Place) :
    d.outline.node? p = (d.node? p).map Node.outline := by
  have hlookup := lookup_map_outline p d.entries
  unfold node? outline
  rw [hlookup]
  generalize d.entries.lookup p = found
  cases p <;> cases found <;> rfl

theorem setEntry_map_outline (p : Place) (n : Node) (es : List (Place × Node)) :
    (setEntry p n es).map (fun e => (e.1, e.2.outline)) =
      setEntry p n.outline (es.map fun e => (e.1, e.2.outline)) := by
  induction es with
  | nil => rfl
  | cons e es ih =>
    obtain ⟨r, m⟩ := e
    by_cases hr : r = p <;> simp [setEntry, hr, ih]

@[simp] theorem outline_set (d : Disk) (p : Place) (n : Node) :
    (d.set p n).outline = d.outline.set p n.outline := by
  simp [set, outline, setEntry_map_outline]

@[simp] theorem isOpenAbove_outline (d : Disk) (p : Place) :
    d.outline.isOpenAbove p = d.isOpenAbove p := by
  cases h : d.node? p.dropLast <;> simp [isOpenAbove, h]

@[simp] theorem follow_outline (d : Disk) (p : Place) (parts : List LooseText) :
    d.outline.follow p parts = d.follow p parts := by
  induction parts generalizing p with
  | nil => rfl
  | cons part rest ih => cases h : d.node? p <;> simp [follow, h, ih]

@[simp] theorem place_outline (d : Disk) (path : FilePath) :
    d.outline.place path = d.place path := by
  simp [place]

theorem outline_add (d : Disk) (path : FilePath) (n : Node) :
    (d.add path n).map outline = d.outline.add path n.outline := by
  cases hp : d.place path with
  | error e => simp [add, hp, Except.map]
  | ok p =>
    cases hn : d.node? p with
    | some m => simp [add, hp, hn, Except.map]
    | none => cases ho : d.isOpenAbove p <;> simp [add, hp, hn, ho, Except.map]

theorem outline_createFresh (d : Disk) (directory : FilePath) (name : LooseText) (i left : Nat) :
    (d.createFresh directory name i left).map (fun x => (x.1, x.2.outline)) =
      d.outline.createFresh directory name i left := by
  induction left generalizing i with
  | zero => rfl
  | succ left ih =>
    have hcreate : (d.create (directory.child (temporaryName name i)) 0o600).map outline =
        d.outline.create (directory.child (temporaryName name i)) 0o600 := outline_add ..
    rw [createFresh, createFresh, ← hcreate]
    cases (directory.child (temporaryName name i)).flaw? with
    | some flaw => rfl
    | none =>
      cases d.create (directory.child (temporaryName name i)) 0o600 with
      | ok created => rfl
      | error e => by_cases he : e.refusal = .taken <;> simp [Except.map, he, ← ih]

/-- New bytes do not change the outline of a disk. -/
theorem outline_set_file (h : d.node? p = some (.file bytes mode)) (other : ByteArray) :
    (d.set p (.file other mode)).outline = d.outline := by
  rw [outline_set]
  exact set_file_self (by rw [node?_outline, h]; rfl)

/-- Another disk of the same outline has room for the same temporary file. -/
theorem exists_createTemporary (houtline : d'.outline = d.outline)
    (h : d.createTemporary path = .ok (temporary, created)) :
    ∃ created', d'.createTemporary path = .ok (temporary, created') := by
  have hd := outline_createFresh d (temporaryDirectory path) path.name 0 nameAttempts
  have hd' := outline_createFresh d' (temporaryDirectory path) path.name 0 nameAttempts
  rw [← createTemporary, h] at hd
  rw [houtline, ← hd, ← createTemporary] at hd'
  cases hc : d'.createTemporary path with
  | error e => simp [hc, Except.map] at hd'
  | ok fresh =>
    obtain ⟨temporary', created'⟩ := fresh
    obtain ⟨rfl, _⟩ : temporary' = temporary ∧ _ := by simpa [hc, Except.map] using hd'
    exact ⟨created', rfl⟩

/-- A file that was replaced can be replaced again. -/
theorem replace_again {old : ByteArray} {room : Option Nat}
    (hs : d.status path = .ok (p, .file old mode))
    (h : d.replaceWithin room path bytes = (.ok (), d')) (next : ByteArray) :
    d'.replaceWithin none path next = (.ok (), d'.set p (.file next mode)) := by
  obtain ⟨q, m, hname, hq, hdir, rfl, hm⟩ := of_replaceWithin h
  obtain ⟨rfl, hn⟩ := eq_of_status hs hq
  obtain rfl : m = mode := by simpa [hn, Node.mode] using hm
  unfold replaceWithin at h
  split at h
  · cases h
  · next temporary created hc =>
    obtain ⟨_, hc'⟩ := exists_createTemporary (outline_set_file hn bytes) hc
    exact replace_of_createTemporary hname (status_set_file hq hdir) hc' next

end Disk

end AsmListing
