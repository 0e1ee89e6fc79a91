import AsmListing.Proofs.FailedRemoval

/-! The buffers in all that may happen to a workspace: calls of the buffers, removals, and changes
of the disk from outside. Whatever is dirty is open, and what fails leaves the buffers as they are.
-/
namespace AsmListing

/-- Something that happens to a workspace. -/
inductive BufferEvent where
  | call (c : BufferCall)
  | removal (module name : LooseText) (mode : RemovalMode)
  /-- Someone else changes the disk. -/
  | outside (after : Disk)

/-- The module that has to be open for the event. -/
def BufferEvent.needed? : BufferEvent → Option LooseText
  | .call (.edit module _) | .call (.save module) => some module
  | _ => none

/-- The failure is that a module is not open. -/
def Failure.IsMissingBuffer (e : Failure) : Prop :=
  ∃ module, e = .notOpen module ∨ e = .noBuffer module

/-- The failure is that the file of a module could not be read or written. -/
def Failure.IsFileFault (e : Failure) : Prop :=
  (∃ fault, e = .moduleAccess fault) ∨ ∃ flaw, e = .badPath flaw

theorem Failure.IsFileFault.not_isMissingBuffer {e : Failure} (h : e.IsFileFault) :
    ¬ e.IsMissingBuffer := by
  rintro ⟨module, rfl | rfl⟩ <;> simp [IsFileFault] at h

namespace Store

variable {s s' : Store} {module text : LooseText} {e : Failure}

theorem isFileFault_of_read (h : s.read module = (.error e, s')) : e.IsFileFault := by
  obtain ⟨_, ⟨_, rfl⟩ | ⟨_, rfl⟩⟩ := of_read_error h
  · exact .inl ⟨_, rfl⟩
  · exact .inr ⟨_, rfl⟩

theorem isFileFault_of_write (h : s.write module text = (.error e, s')) : e.IsFileFault := by
  obtain ⟨_, ⟨_, _, rfl⟩ | ⟨_, ⟨_, rfl⟩ | ⟨_, rfl⟩⟩⟩ := of_refused_write h
  · exact .inl ⟨_, rfl⟩
  · exact .inl ⟨_, rfl⟩
  · exact .inr ⟨_, rfl⟩

end Store

namespace Workspace

variable {w w' : Workspace} {module name text : LooseText} {buffers : Bool} {mode : RemovalMode}
  {removal : Removal} {report : RemovalReport} {written : Written} {e : Failure}
  {event : BufferEvent}

/-- The workspace after an event, whether it succeeded or not. -/
def after (w : Workspace) : BufferEvent → Workspace
  | .call c => w.call c
  | .removal module name mode => (w.removeRoutine module name mode).2
  | .outside disk => { w with store := { w.store with disk } }

/-- The event is a call, and it fails. -/
def Fails (w : Workspace) (e : Failure) : BufferEvent → Prop
  | .call (.openModule module) => (w.openModule module).1 = .error e
  | .call (.edit module text) => (w.edit module text).1 = .error e
  | .call (.save module) => (w.save module).1 = .error e
  | .removal module name mode => (w.removeRoutine module name mode).1 = .error e
  | .outside _ => False

/-- The workspaces that events lead to from one without buffers. -/
inductive IsReached : Workspace → Prop
  | start (store : Store) : IsReached ⟨store, Buffers.empty⟩
  | event {w : Workspace} (before : IsReached w) (event : BufferEvent) : IsReached (w.after event)

/-- The module has been saved: its file holds the text of its buffer, which is not dirty any more,
and nothing else has changed in the buffers. -/
structure IsSaved (before : Buffers) (w : Workspace) (module : LooseText) : Prop where
  clean : w.buffers.isDirty module = false
  others : ∀ other, other ≠ module → w.buffers.isDirty other = before.isDirty other
  texts : w.buffers.texts = before.texts
  holds : ∃ text, before.text module = .ok text ∧ w.store.Holds module text

/-! What a save does. -/

/-- A save that fails leaves the buffers as they are; either the module is not open, or its file
cannot be written. -/
theorem of_failed_save (h : w.save module = (.error e, w')) : w'.buffers = w.buffers ∧
    (w.buffers.isOpen module = false ∧ e.IsMissingBuffer ∨
      w.buffers.isOpen module = true ∧ e.IsFileFault) := by
  cases hopen : w.buffers.isOpen module with
  | false =>
    have hnone : w.buffers.texts.lookup module = none := by simpa [Buffers.isOpen] using hopen
    obtain ⟨rfl, rfl⟩ : .noBuffer module = e ∧ w = w' := by
      simpa [save, Buffers.text, hnone] using h
    exact ⟨rfl, .inl ⟨rfl, module, .inr rfl⟩⟩
  | true =>
    obtain ⟨text, htext⟩ := Buffers.exists_text_of_isOpen hopen
    obtain ⟨store, hw, rfl⟩ := of_save_error htext h
    exact ⟨rfl, .inr ⟨rfl, Store.isFileFault_of_write hw⟩⟩

/-- The save of an open module fails only where its file cannot be written. -/
theorem isFileFault_of_failed_save (h : w.save module = (.error e, w'))
    (hopen : w.buffers.isOpen module = true) : e.IsFileFault := by
  obtain ⟨_, ⟨hclosed, _⟩ | ⟨_, hfault⟩⟩ := of_failed_save h
  · simp [hopen] at hclosed
  · exact hfault

theorem isSaved_of_save (h : w.save module = (.ok written, w')) : IsSaved w.buffers w' module := by
  have hholds := holds_of_save h
  obtain ⟨store, rfl⟩ : ∃ store, w' = ⟨store, w.buffers.saved module⟩ := by
    unfold save at h
    split at h
    · cases h
    · split at h
      · cases h
      · exact ⟨_, (Prod.mk.inj h).2.symm⟩
  refine ⟨?_, fun other hne => ?_, rfl, hholds⟩
  · simp [Buffers.isDirty, Buffers.saved]
  · simp [Buffers.isDirty, Buffers.saved, hne]

/-! What a removal does to the buffers. -/

theorem not_isMissingBuffer_of_planRemoval {collapse : Bool}
    (h : w.planRemoval module name collapse = (.error e, w')) : ¬ e.IsMissingBuffer := by
  unfold planRemoval at h
  split at h
  · next fault store hr =>
    obtain rfl := Except.error.inj (Prod.mk.inj h).1
    exact (Store.isFileFault_of_read hr).not_isMissingBuffer
  · split at h
    · obtain rfl := Except.error.inj (Prod.mk.inj h).1
      simp [Failure.IsMissingBuffer]
    · cases h

/-- Where all that is dirty is open, the buffer that a removal saves at last is there. -/
theorem of_carryOut_failure (hs : w.buffers.IsSound)
    (h : w.carryOut module removal buffers = (.error e, w')) :
    w'.buffers = w.buffers ∧ ¬ e.IsMissingBuffer := by
  obtain ⟨store, hw, rfl⟩ | ⟨_, store, _, _, hdirty, hsave⟩ := of_carryOut_error h
  · exact ⟨rfl, (Store.isFileFault_of_write hw).not_isMissingBuffer⟩
  · have hfault := isFileFault_of_failed_save hsave (hs module hdirty)
    exact ⟨(of_failed_save hsave).1, hfault.not_isMissingBuffer⟩

theorem of_failed_removal (hs : w.buffers.IsSound)
    (h : w.removeRoutine module name mode = (.error e, w')) :
    w'.buffers = w.buffers ∧ ¬ e.IsMissingBuffer := by
  unfold removeRoutine at h
  split at h
  · next fault after hp =>
    obtain ⟨he, rfl⟩ := Prod.mk.inj h
    obtain rfl := Except.error.inj he
    exact ⟨buffers_of_planRemoval hp, not_isMissingBuffer_of_planRemoval hp⟩
  · next removal after hp =>
    have hsame := buffers_of_planRemoval hp
    split at h
    · cases h
    · obtain ⟨hkept, hmissing⟩ := of_carryOut_failure (hsame ▸ hs) h
      exact ⟨hkept.trans hsame, hmissing⟩

/-- A removal that is carried out saves at most the buffer of its module. -/
theorem of_carryOut (h : w.carryOut module removal buffers = (.ok report, w')) :
    (report.saved = none ∧ w'.buffers = w.buffers) ∨ IsSaved w.buffers w' module := by
  unfold carryOut at h
  split at h
  · cases h
  · next written store hw =>
    simp only at h
    split at h
    · split at h
      · cases h
      · next saved after hsave =>
        obtain ⟨_, rfl⟩ := Prod.mk.inj h
        have hsaved := isSaved_of_save hsave
        exact .inr hsaved
    · obtain ⟨hreport, rfl⟩ := Prod.mk.inj h
      obtain rfl := Except.ok.inj hreport
      exact .inl ⟨rfl, rfl⟩

theorem of_removeRoutine (h : w.removeRoutine module name mode = (.ok report, w')) :
    (report.saved = none ∧ w'.buffers = w.buffers) ∨ IsSaved w.buffers w' module := by
  unfold removeRoutine at h
  split at h
  · cases h
  · next removal after hp =>
    rw [← buffers_of_planRemoval hp]
    split at h
    · obtain ⟨hreport, rfl⟩ := Prod.mk.inj h
      obtain rfl := Except.ok.inj hreport
      exact .inl ⟨rfl, rfl⟩
    · exact of_carryOut h

/-! What an event preserves. -/

theorem IsSaved.isSound (h : IsSaved w.buffers w' module) (hs : w.buffers.IsSound) :
    w'.buffers.IsSound := by
  intro other hdirty
  have hne : other ≠ module := by
    rintro rfl
    simp [h.clean] at hdirty
  rw [h.others other hne] at hdirty
  rw [Buffers.isOpen, h.texts]
  exact hs other hdirty

theorem isSound_after (hs : w.buffers.IsSound) (event : BufferEvent) :
    (w.after event).buffers.IsSound := by
  cases event with
  | call c => exact isSound_call hs c
  | outside disk => exact hs
  | removal module name mode =>
    rcases hr : w.removeRoutine module name mode with ⟨e | report, w'⟩
    · have hsame := (of_failed_removal hs hr).1
      simpa [after, hr, hsame] using hs
    · simp only [after, hr]
      rcases of_removeRoutine hr with ⟨_, hsame⟩ | hsaved
      · exact hsame ▸ hs
      · exact hsaved.isSound hs

/-- What fails leaves the buffers as they are, and fails for want of a buffer exactly where it needs
one that is not open. -/
theorem of_fails (hs : w.buffers.IsSound) (h : w.Fails e event) :
    (w.after event).buffers = w.buffers ∧
      (e.IsMissingBuffer ↔ ∃ module ∈ event.needed?, w.buffers.isOpen module = false) := by
  cases event with
  | outside disk => exact h.elim
  | removal module name mode =>
    obtain ⟨hsame, hmissing⟩ := of_failed_removal hs (Prod.ext h rfl)
    exact ⟨hsame, by simp [hmissing, BufferEvent.needed?]⟩
  | call c =>
    cases c with
    | openModule module =>
      simp only [Fails, openModule] at h
      rcases hr : w.store.read module with ⟨fault | text, store⟩
      · rw [hr] at h
        obtain rfl := Except.error.inj h
        have hmissing := (Store.isFileFault_of_read hr).not_isMissingBuffer
        exact ⟨by simp [after, call, openModule, hr], by simp [hmissing, BufferEvent.needed?]⟩
      · rw [hr] at h
        cases h
    | edit module text =>
      simp only [Fails, edit] at h
      cases hopen : w.buffers.isOpen module with
      | true => simp [hopen] at h
      | false =>
        simp only [hopen, Bool.false_eq_true, if_false] at h
        obtain rfl := Except.error.inj h
        exact ⟨by simp [after, call, edit, hopen],
          by simp [Failure.IsMissingBuffer, BufferEvent.needed?, hopen]⟩
    | save module =>
      obtain ⟨hsame, ⟨hopen, hmissing⟩ | ⟨hopen, hfault⟩⟩ := of_failed_save (Prod.ext h rfl)
      · exact ⟨hsame, by simp [hmissing, BufferEvent.needed?, hopen]⟩
      · exact ⟨hsame, by simp [hfault.not_isMissingBuffer, BufferEvent.needed?, hopen]⟩

theorem IsReached.isSound (h : w.IsReached) : w.buffers.IsSound := by
  induction h with
  | start store => exact Buffers.isSound_empty
  | event before event ih => exact isSound_after ih event

/-- In whatever state events lead to, all that is dirty is open. What fails there leaves the buffers
as they are; it fails for want of a buffer exactly where it edits or saves a module that is not
open, so that a dirty module can be saved unless its file cannot be written. What is saved, by
itself or behind a removal, is clean, and its file holds the text of its buffer. -/
theorem buffers_stay_sound (h : w.IsReached) :
    (∀ module, w.buffers.isDirty module = true → w.buffers.isOpen module = true) ∧
    (∀ event e, w.Fails e event → (w.after event).buffers = w.buffers ∧
      (e.IsMissingBuffer ↔ ∃ module ∈ event.needed?, w.buffers.isOpen module = false)) ∧
    (∀ module e w', w.buffers.isDirty module = true → w.save module = (.error e, w') →
      e.IsFileFault ∧ w'.buffers.isDirty module = true ∧
        w'.buffers.text module = w.buffers.text module) ∧
    (∀ module written w', w.save module = (.ok written, w') → IsSaved w.buffers w' module) ∧
    ∀ module name mode report w', w.removeRoutine module name mode = (.ok report, w') →
      report.saved.isSome → IsSaved w.buffers w' module := by
  have hs := h.isSound
  refine ⟨hs, fun event e hfails => of_fails hs hfails, ?_, ?_, ?_⟩
  · intro module e w' hdirty hsave
    have hsame := (of_failed_save hsave).1
    have hfault := isFileFault_of_failed_save hsave (hs module hdirty)
    exact ⟨hfault, hsame ▸ hdirty, by rw [hsame]⟩
  · intro module written w' hsave
    exact isSaved_of_save hsave
  · intro module name mode report w' hremoved hsaved
    rcases of_removeRoutine hremoved with ⟨hnone, _⟩ | hsaved
    · simp [hnone] at hsaved
    · exact hsaved

theorem isReached_snowman : snowman.IsReached :=
  .event (.event (.start _) (.call (.openModule "m.s"))) (.call (.edit "m.s" _))

/-- The snowman cannot be saved and stays in its buffer; a text without it is saved. -/
theorem buffers_stay_sound_of_snowman :
    snowman.IsReached ∧ snowman.buffers.isDirty "m.s" = true ∧
    (∃ e w', snowman.save "m.s" = (.error e, w') ∧ e.IsFileFault ∧
      w'.buffers.isDirty "m.s" = true ∧
      w'.buffers.text "m.s" = .ok "glabel f\n.size f, .-f\n\u2603\n") ∧
    (snowman.after (.call (.edit "m.s" "\n"))).IsReached ∧
    ∃ written w', (snowman.after (.call (.edit "m.s" "\n"))).save "m.s" = (.ok written, w') ∧
      w'.buffers.isDirty "m.s" = false ∧ w'.store.Holds "m.s" "\n" := by
  have hreached := isReached_snowman
  have hdirty : snowman.buffers.isDirty "m.s" = true := by decide +kernel
  have hedited := hreached.event (.call (.edit "m.s" "\n"))
  obtain ⟨_, _, hfails, _⟩ := buffers_stay_sound hreached
  obtain ⟨_, _, _, hsaves, _⟩ := buffers_stay_sound hedited
  have hsave : snowman.save "m.s" =
      (.error (.moduleAccess
        (.unencodable "m.s" .latin1 ⟨.latin1, .char (Char.ofNat 0x2603), 22, 23⟩)),
        (snowman.save "m.s").2) :=
    Prod.ext (by decide +kernel) rfl
  have hsave' : (snowman.after (.call (.edit "m.s" "\n"))).save "m.s" =
      (.ok ⟨⟨.root, ["m.s"]⟩, 1, .latin1⟩,
        ((snowman.after (.call (.edit "m.s" "\n"))).save "m.s").2) :=
    Prod.ext (by decide +kernel) rfl
  obtain ⟨hfault, hkept, htext⟩ := hfails _ _ _ hdirty hsave
  have hsaved := hsaves _ _ _ hsave'
  obtain ⟨text, hbuffer, hholds⟩ := hsaved.holds
  obtain rfl : ("\n" : LooseText) = text := Except.ok.inj hbuffer
  exact ⟨hreached, hdirty, ⟨_, _, hsave, hfault, hkept, htext⟩, hedited, _, _, hsave',
    hsaved.clean, hholds⟩

end Workspace

end AsmListing
