import AsmListing.Proofs.Store
import AsmListing.Store.Removal

/-! What a removal leaves on the disk. The write of the new text is not the last one where a dirty
buffer of the module is saved behind it. -/
namespace AsmListing.Workspace

variable {w w' : Workspace} {module name : LooseText} {mode : RemovalMode} {collapse buffers : Bool}
  {removal : Removal} {report : RemovalReport} {written : Written}

/-- Planning a removal leaves the buffers as they are, whether it succeeds or not. -/
theorem buffers_of_planRemoval {outcome : Except Failure Removal}
    (h : w.planRemoval module name collapse = (outcome, w')) : w'.buffers = w.buffers := by
  unfold planRemoval at h
  split at h
  · rw [← (Prod.mk.inj h).2]
  · split at h <;> rw [← (Prod.mk.inj h).2]

/-- A buffer that has been saved is what the file of its module holds. -/
theorem holds_of_save (h : w.save module = (.ok written, w')) :
    ∃ text, w.buffers.text module = .ok text ∧ w'.store.Holds module text := by
  unfold save at h
  split at h
  · cases h
  · next text ht =>
    split at h
    · cases h
    · next saved store hw =>
      obtain rfl := (Prod.mk.inj h).2
      exact ⟨text, ht, Store.holds_of_write hw⟩

theorem holds_of_carryOut (h : w.carryOut module removal buffers = (.ok report, w')) :
    report.removal = removal ∧ ∃ last, w'.store.Holds module last ∧
      if buffers && w.buffers.isDirty module then w.buffers.text module = .ok last
      else last = removal.text.loose := by
  unfold carryOut at h
  split at h
  · cases h
  · next written store hw =>
    by_cases hdirty : (buffers && w.buffers.isDirty module) = true
    · simp only [hdirty, if_true] at h ⊢
      split at h
      · cases h
      · next saved after hs =>
        obtain ⟨hr, rfl⟩ := Prod.mk.inj h
        obtain rfl := Except.ok.inj hr
        obtain ⟨last, htext, hlast⟩ := holds_of_save hs
        exact ⟨rfl, last, hlast, htext⟩
    · simp only [hdirty, Bool.false_eq_true, if_false] at h ⊢
      obtain ⟨hr, rfl⟩ := Prod.mk.inj h
      obtain rfl := Except.ok.inj hr
      exact ⟨rfl, removal.text, Store.holds_of_write hw, rfl⟩

/-- After a removal the file holds the text of the removal or, where the buffer of the module was
dirty and had to be saved, the text of that buffer. -/
theorem holds_of_removeRoutine (hd : mode.dryRun = false)
    (h : w.removeRoutine module name mode = (.ok report, w')) :
    ∃ last, w'.store.Holds module last ∧
      if mode.buffers && w.buffers.isDirty module then w.buffers.text module = .ok last
      else last = report.removal.text.loose := by
  unfold removeRoutine at h
  split at h
  · cases h
  · next removal after hp =>
    simp only [hd, Bool.false_eq_true, if_false] at h
    obtain ⟨hr, last, hlast, hcase⟩ := holds_of_carryOut h
    rw [buffers_of_planRemoval hp] at hcase
    exact ⟨last, hlast, hr ▸ hcase⟩

/-- A removal that has been carried out is what the file of the module holds, in the encoding of the
module, exactly where no dirty buffer of the module is saved behind it or that buffer already had
the text of the removal. -/
theorem holds_removal_iff (hd : mode.dryRun = false)
    (h : w.removeRoutine module name mode = (.ok report, w')) :
    w'.store.Holds module report.removal.text ↔
      (mode.buffers = true → w.buffers.isDirty module = true →
        w.buffers.text module = .ok report.removal.text) := by
  obtain ⟨last, hlast, hcase⟩ := holds_of_removeRoutine hd h
  by_cases hdirty : (mode.buffers && w.buffers.isDirty module) = true
  · rw [if_pos hdirty] at hcase
    constructor
    · intro hkept _ _
      rw [hcase, hlast.unique hkept]
    · intro hsame
      rw [Bool.and_eq_true] at hdirty
      have htext := hsame hdirty.1 hdirty.2
      obtain rfl := Except.ok.inj (hcase.symm.trans htext)
      exact hlast
  · rw [if_neg hdirty] at hcase
    subst hcase
    constructor
    · intro _ hb hm
      exact (hdirty (by simp [hb, hm])).elim
    · intro _
      exact hlast

/-- A workspace on a disk with one file in it, which holds the text of a module in UTF-8. -/
def ofModule (module : LooseText) (text : Text) : Workspace :=
  fresh { entries := [([module], .file ⟨(Utf8.encode text).toArray⟩ 0o644)] } ⟨.root, []⟩

/-- The buffer of the module is dirty, but already has the text that the removal leaves. -/
theorem holds_removal_iff_of_same_text :
    ∃ w' report,
      ((ofModule "m.s" "glabel f\n.size f, .-f\n").run
        [.openModule "m.s", .edit "m.s" "\n"]).removeRoutine "m.s" "f" ⟨false, true, true⟩ =
        (.ok report, w') ∧
      ((ofModule "m.s" "glabel f\n.size f, .-f\n").run
        [.openModule "m.s", .edit "m.s" "\n"]).buffers.isDirty "m.s" = true ∧
      w'.store.Holds "m.s" report.removal.text := by
  let w := (ofModule "m.s" "glabel f\n.size f, .-f\n").run [.openModule "m.s", .edit "m.s" "\n"]
  let report : RemovalReport := ⟨⟨"f", ⟨0, 1⟩, "glabel f\n.size f, .-f", "\n"⟩,
    some ⟨⟨.root, ["m.s"]⟩, 1, .utf8⟩, some ⟨⟨.root, ["m.s"]⟩, 1, .utf8⟩⟩
  have hrun : w.removeRoutine "m.s" "f" ⟨false, true, true⟩ =
      (.ok report, (w.removeRoutine "m.s" "f" ⟨false, true, true⟩).2) :=
    Prod.ext (by decide +kernel) rfl
  refine ⟨_, _, hrun, by decide +kernel, (holds_removal_iff rfl hrun).mpr ?_⟩
  intro _ _
  decide +kernel

/-- A removal can be lost: an edit that was not saved before is written over it. -/
theorem not_holds_removal :
    ¬ ∀ (disk : Disk) (root : FilePath) (encodings : List (FilePath × Encoding))
      (calls : List BufferCall) (module name : LooseText) (mode : RemovalMode)
      (report : RemovalReport) (w' : Workspace), mode.dryRun = false →
      (run ⟨⟨disk, root, encodings⟩, Buffers.empty⟩ calls).removeRoutine module name mode =
        (.ok report, w') →
      w'.store.Holds module report.removal.text := by
  intro hkept
  let w := (ofModule "m.s" "glabel f\n.size f, .-f\n").run
    [.openModule "m.s", .edit "m.s" "glabel f\n.size f, .-f\n# note\n"]
  let report : RemovalReport := ⟨⟨"f", ⟨0, 1⟩, "glabel f\n.size f, .-f", "\n"⟩,
    some ⟨⟨.root, ["m.s"]⟩, 1, .utf8⟩, some ⟨⟨.root, ["m.s"]⟩, 29, .utf8⟩⟩
  have hrun : w.removeRoutine "m.s" "f" ⟨false, true, true⟩ =
      (.ok report, (w.removeRoutine "m.s" "f" ⟨false, true, true⟩).2) :=
    Prod.ext (by decide +kernel) rfl
  have hholds := hkept _ _ _ _ _ _ _ _ _ rfl hrun
  obtain ⟨last, hlast, hcase⟩ := holds_of_removeRoutine rfl hrun
  obtain rfl := hlast.unique hholds
  exact absurd hcase (by decide +kernel)

end AsmListing.Workspace
