import AsmListing.Proofs.Disk
import AsmListing.Proofs.Encoding
import AsmListing.Store.Buffers

/-! What a write leaves on the disk, and the states that calls of the buffers lead to. -/
namespace AsmListing

/-- The file of the module holds this text, in the encoding in which the module is written. -/
def Store.Holds (s : Store) (module text : LooseText) : Prop :=
  ∃ bytes, (s.encodingOf module).encode text = .ok bytes ∧
    s.disk.bytes? (s.path module) = some ⟨bytes.toArray⟩

/-- The failure is that a text of the module has no bytes in its encoding. -/
def Failure.IsUnencodable (module : LooseText) (e : Failure) : Prop :=
  ∃ enc fault, e = .moduleAccess (.unencodable module enc fault)

namespace Store

variable {s s' : Store} {module text other : LooseText} {found : Text} {written : Written}
  {room : Option Nat} {e : Failure}

/-- A file holds one text at most. -/
theorem Holds.unique (h : s.Holds module text) (h' : s.Holds module other) : text = other := by
  obtain ⟨bytes, he, hb⟩ := h
  obtain ⟨bytes', he', hb'⟩ := h'
  obtain rfl : bytes = bytes' := by simpa [hb] using hb'
  exact Encoding.encode_injective he he'

@[simp] theorem path_remember (s : Store) (path : FilePath) (enc : Encoding) (module : LooseText) :
    (s.remember path enc).path module = s.path module := rfl

@[simp] theorem encodingOf_remember (s : Store) (module : LooseText) (enc : Encoding) :
    (s.remember (s.path module) enc).encodingOf module = enc := by
  rw [encodingOf, path_remember, remember]
  simp

/-- What has been read is in a file, and its encoding is remembered. -/
theorem of_read (h : s.read module = (.ok found, s')) :
    ∃ p bytes mode enc, s.disk.status (s.path module) = .ok (p, .file bytes mode) ∧
      (s.path module).flaw? = none ∧ Encoding.detect bytes.data.toList = (found, enc) ∧
      s' = s.remember (s.path module) enc := by
  unfold read at h
  split at h
  · cases h
  · next t enc hload =>
    obtain ⟨htext, rfl⟩ := Prod.mk.inj h
    obtain rfl := Except.ok.inj htext
    unfold load at hload
    split at hload
    · cases hload
    · next hname =>
      split at hload
      · cases hload
      · next bytes hread =>
        obtain ⟨p, mode, hstatus⟩ := Disk.of_read hread
        exact ⟨p, bytes, mode, enc, hstatus, hname, Except.ok.inj hload, rfl⟩

/-- A module that cannot be read leaves the store as it is. -/
theorem of_read_error (h : s.read module = (.error e, s')) : s' = s ∧
    ((∃ fault, e = .moduleAccess (.unreadable module fault)) ∨ ∃ flaw, e = .badPath flaw) := by
  unfold read at h
  split at h
  · next hload =>
    obtain ⟨he, rfl⟩ := Prod.mk.inj h
    obtain rfl := Except.error.inj he
    refine ⟨rfl, ?_⟩
    unfold load at hload
    split at hload
    · exact .inr ⟨_, (Except.error.inj hload).symm⟩
    · split at hload
      · exact .inl ⟨_, (Except.error.inj hload).symm⟩
      · cases hload
  · cases h

/-- The three ends of a write: the text has no bytes, or its file is not replaced, and nothing has
changed; or a file is in place, with the mode of the one that stood there, if there was one. -/
theorem writeWithin_cases (s : Store) (room : Option Nat) (module text : LooseText) :
    (∃ fault, (s.encodingOf module).encode text = .error fault ∧ s.writeWithin room module text =
      (.error (.moduleAccess (.unencodable module (s.encodingOf module) fault)), s)) ∨
    ∃ bytes, (s.encodingOf module).encode text = .ok bytes ∧
      ((∃ fault, s.disk.replaceWithin room (s.path module) ⟨bytes.toArray⟩ = (.error fault, s.disk) ∧
        s.writeWithin room module text = (.error (unwritten module fault), s)) ∨
      ∃ p mode, (s.path module).flaw? = none ∧ s.disk.place (s.path module) = .ok p ∧
        (∀ k, s.disk.node? p ≠ some (.directory k)) ∧
        mode = (s.disk.node? p).elim 0o600 Node.mode ∧
        s.writeWithin room module text =
          (.ok ⟨s.path module, bytes.length, s.encodingOf module⟩,
            { s with disk := s.disk.set p (.file ⟨bytes.toArray⟩ mode) })) := by
  cases henc : (s.encodingOf module).encode text with
  | error fault => exact .inl ⟨fault, rfl, by simp [writeWithin, henc]⟩
  | ok bytes =>
    refine .inr ⟨bytes, rfl, ?_⟩
    rcases hr : s.disk.replaceWithin room (s.path module) ⟨bytes.toArray⟩ with ⟨fault | _, disk⟩
    · obtain rfl := Disk.of_replaceWithin_error hr
      exact .inl ⟨fault, rfl, by simp [writeWithin, henc, hr]⟩
    · obtain ⟨p, mode, hname, hp, hdir, rfl, hmode⟩ := Disk.of_replaceWithin hr
      exact .inr ⟨p, mode, hname, hp, hdir, hmode, by simp [writeWithin, henc, hr]⟩

/-- What a write that fails can fail with: either the text has no bytes, or they do not get into the
file. The store is left as it is. -/
theorem of_refused_write (h : s.write module text = (.error e, s')) : s' = s ∧
    ((∃ fault, (s.encodingOf module).encode text = .error fault ∧
      e = .moduleAccess (.unencodable module (s.encodingOf module) fault)) ∨
    (∃ bytes, (s.encodingOf module).encode text = .ok bytes) ∧
      ((∃ fault, e = .moduleAccess (.unwritable module fault)) ∨ ∃ flaw, e = .badPath flaw)) := by
  obtain ⟨fault, henc, hw⟩ | ⟨bytes, henc, ⟨fault, _, hw⟩ | ⟨_, _, _, _, _, _, hw⟩⟩ :=
    writeWithin_cases s none module text <;> rw [← write, h] at hw <;> cases hw
  · exact ⟨rfl, .inl ⟨fault, henc, rfl⟩⟩
  · refine ⟨rfl, .inr ⟨⟨bytes, henc⟩, ?_⟩⟩
    cases fault with
    | refused fault => exact .inl ⟨fault, rfl⟩
    | flawed flaw => exact .inr ⟨flaw, rfl⟩

/-- A write that fails leaves the store as it is. It fails for want of bytes exactly where the text
has none. -/
theorem of_write_error (h : s.write module text = (.error e, s')) :
    s' = s ∧
      ((∃ bytes, (s.encodingOf module).encode text = .ok bytes) → ¬ e.IsUnencodable module) ∧
      ∀ fault, (s.encodingOf module).encode text = .error fault →
        e = .moduleAccess (.unencodable module (s.encodingOf module) fault) := by
  obtain ⟨hs, ⟨fault, hfault, rfl⟩ | ⟨⟨bytes, hbytes⟩, ⟨_, rfl⟩ | ⟨_, rfl⟩⟩⟩ := of_refused_write h
  · exact ⟨hs, by simp [hfault], by simp [hfault]⟩
  · exact ⟨hs, by simp [Failure.IsUnencodable], by simp [hbytes]⟩
  · exact ⟨hs, by simp [Failure.IsUnencodable], by simp [hbytes]⟩

/-- A write that succeeds puts a file in place, with the mode of the one that stood there, if there
was one, and changes nothing else. -/
theorem of_write (h : s.write module text = (.ok written, s')) :
    ∃ bytes p mode, (s.encodingOf module).encode text = .ok bytes ∧
      (s.path module).flaw? = none ∧ s.disk.place (s.path module) = .ok p ∧
      (∀ k, s.disk.node? p ≠ some (.directory k)) ∧
      mode = (s.disk.node? p).elim 0o600 Node.mode ∧
      s' = { s with disk := s.disk.set p (.file ⟨bytes.toArray⟩ mode) } := by
  obtain ⟨_, _, hw⟩ | ⟨bytes, henc, ⟨_, _, hw⟩ | ⟨p, mode, hname, hp, hdir, hmode, hw⟩⟩ :=
    writeWithin_cases s none module text <;> rw [← write, h] at hw <;> cases hw
  exact ⟨bytes, p, mode, henc, hname, hp, hdir, hmode, rfl⟩

/-- A write to a file gives it new bytes and changes nothing else. -/
theorem of_write_file {p : Place} {old : ByteArray} {mode : Nat}
    (hs : s.disk.status (s.path module) = .ok (p, .file old mode))
    (h : s.write module text = (.ok written, s')) :
    ∃ bytes, (s.encodingOf module).encode text = .ok bytes ∧
      s' = { s with disk := s.disk.set p (.file ⟨bytes.toArray⟩ mode) } := by
  obtain ⟨bytes, q, m, henc, _, hq, _, hm, heq⟩ := of_write h
  obtain ⟨rfl, hn⟩ := Disk.eq_of_status hs hq
  obtain rfl : m = mode := by simpa [hn, Node.mode] using hm
  exact ⟨bytes, henc, heq⟩

/-- What has been written is what the file holds. -/
theorem holds_of_write (h : s.write module text = (.ok written, s')) : s'.Holds module text := by
  obtain ⟨bytes, p, mode, henc, _, hp, hdir, _, rfl⟩ := of_write h
  have hbytes : (s.disk.set p (.file ⟨bytes.toArray⟩ mode)).bytes? (s.path module) =
      some ⟨bytes.toArray⟩ := by
    simp [Disk.bytes?, Disk.status_set_file hp hdir]
  exact ⟨bytes, henc, hbytes⟩

end Store

/-- A call of the buffers. -/
inductive BufferCall where
  | openModule (module : LooseText)
  | edit (module text : LooseText)
  | save (module : LooseText)
  deriving DecidableEq, Repr

namespace Workspace

/-- The workspace after a call, whether it succeeded or not. -/
def call (w : Workspace) : BufferCall → Workspace
  | .openModule module => (w.openModule module).2
  | .edit module text => (w.edit module text).2
  | .save module => (w.save module).2

/-- The workspace after a run of calls. -/
def run (w : Workspace) (calls : List BufferCall) : Workspace := calls.foldl call w

end Workspace

namespace Buffers

variable {b : Buffers} {module other t : LooseText} {dirty : List LooseText}

/-- Whatever is dirty is open. -/
def IsSound (b : Buffers) : Prop := ∀ m, b.isDirty m = true → b.isOpen m = true

/-- A run of calls leads from no buffers to these. -/
def IsReachable (b : Buffers) : Prop :=
  ∃ store calls, b = (Workspace.run ⟨store, Buffers.empty⟩ calls).buffers

theorem isDirty_iff : b.isDirty module = true ↔ module ∈ b.dirty := by
  simp [isDirty]

theorem isOpen_iff : b.isOpen module = true ↔ ∃ x ∈ b.texts, module = x.1 := by
  simp [isOpen, List.lookup_isSome_iff]

theorem exists_text_of_isOpen (h : b.isOpen module = true) : ∃ t, b.text module = .ok t := by
  obtain ⟨t, ht⟩ := Option.isSome_iff_exists.mp h
  exact ⟨t, by simp [text, ht]⟩

/-- A buffer that is filled is open, and no other one is closed for it. -/
theorem isOpen_put :
    (Buffers.mk (b.put module t) dirty).isOpen other = true ↔
      other = module ∨ b.isOpen other = true := by
  by_cases h : other = module
  · simp [isOpen_iff, put, h]
  · constructor
    · intro hopen
      obtain ⟨x, hx, rfl⟩ := isOpen_iff.mp hopen
      rcases List.mem_cons.mp hx with rfl | hx
      · exact (h rfl).elim
      · exact .inr (isOpen_iff.mpr ⟨x, (List.mem_filter.mp hx).1, rfl⟩)
    · rintro (hself | hopen)
      · exact (h hself).elim
      · obtain ⟨x, hx, rfl⟩ := isOpen_iff.mp hopen
        have hkept : x ∈ b.texts.filter fun y => y.1 != module :=
          List.mem_filter.mpr ⟨hx, by simpa using h⟩
        exact isOpen_iff.mpr ⟨x, List.mem_cons_of_mem _ hkept, rfl⟩

theorem isSound_empty : empty.IsSound := by
  intro m hm
  simp [isDirty_iff, empty] at hm

theorem IsSound.opened (h : b.IsSound) (module t : LooseText) : (b.opened module t).IsSound := by
  intro m hm
  have hmem : m ∈ b.dirty ∧ m ≠ module := by simpa [isDirty_iff, Buffers.opened] using hm
  exact isOpen_put.mpr (.inr (h m (isDirty_iff.mpr hmem.1)))

theorem IsSound.edited (h : b.IsSound) (module t : LooseText) : (b.edited module t).IsSound := by
  intro m hm
  have hmem : m = module ∨ m ∈ b.dirty ∧ m ≠ module := by
    simpa [isDirty_iff, Buffers.edited] using hm
  exact isOpen_put.mpr (hmem.imp_right fun hm => h m (isDirty_iff.mpr hm.1))

theorem IsSound.saved (h : b.IsSound) (module : LooseText) : (b.saved module).IsSound := by
  intro m hm
  have hmem : m ∈ b.dirty ∧ m ≠ module := by simpa [isDirty_iff, Buffers.saved] using hm
  exact h m (isDirty_iff.mpr hmem.1)

end Buffers

namespace Workspace

variable {w : Workspace} {module : LooseText}

theorem isSound_call (h : w.buffers.IsSound) (c : BufferCall) : (w.call c).buffers.IsSound := by
  cases c with
  | openModule module =>
    simp only [call, openModule]
    split
    · exact h
    · exact h.opened _ _
  | edit module text =>
    simp only [call, edit]
    split
    · exact h.edited _ _
    · exact h
  | save module =>
    simp only [call, save]
    split
    · exact h
    · split
      · exact h
      · exact h.saved _

theorem isSound_run (h : w.buffers.IsSound) (calls : List BufferCall) :
    (w.run calls).buffers.IsSound := by
  induction calls generalizing w with
  | nil => exact h
  | cons c calls ih => exact ih (isSound_call h c)

end Workspace

/-- A buffer that is dirty after some calls has a text to be saved. -/
theorem Buffers.IsReachable.exists_text {b : Buffers} {module : LooseText} (h : b.IsReachable)
    (hd : b.isDirty module = true) : ∃ t, b.text module = .ok t := by
  obtain ⟨store, calls, rfl⟩ := h
  exact exists_text_of_isOpen (Workspace.isSound_run isSound_empty calls module hd)

end AsmListing
