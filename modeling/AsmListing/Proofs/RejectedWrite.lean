import AsmListing.Proofs.SettingsMerge

/-! Updates of the settings that are refused. The directory of the settings has been made before that
where it was missing, and it marks a workspace: a search that starts below ends there. In every other
case nothing has changed. -/
namespace AsmListing

namespace WorkspaceRoot

variable {d : Disk} {directory start root : FilePath} {place below : List LooseText}

/-- The directory with the settings is a mark. -/
theorem isMarked_of_hasDirectory (h : Settings.HasDirectory d root) :
    isMarked d root = .ok true := by
  obtain ⟨hname, hp, m, hm⟩ := h
  have hprobe := Disk.probe_of_place hname hp
  rw [hm] at hprobe
  rw [isMarked, ← Settings.directory, hprobe]

/-- One step upwards, or the end of the search. -/
theorem nearest_concat (d : Disk) (place : List LooseText) (name : LooseText) :
    nearest d (place ++ [name]).reverse =
      match isMarked d ⟨.root, place ++ [name]⟩ with
      | .error e => .error e
      | .ok true => .ok (some ⟨.root, place ++ [name]⟩)
      | .ok false => nearest d place.reverse := by
  have hplace : (name :: place.reverse).reverse = place ++ [name] := by
    rw [List.reverse_cons, List.reverse_reverse]
  rw [List.reverse_append, List.reverse_singleton, List.singleton_append, nearest]
  rewrite [hplace]
  rfl

/-- Directories without a mark are passed by on the way up. -/
theorem nearest_append (hbelow : ∀ front, front <+: below → front ≠ [] →
    isMarked d ⟨.root, place ++ front⟩ = .ok false) :
    nearest d (place ++ below).reverse = nearest d place.reverse := by
  induction below using List.reverseRecOn with
  | nil => rw [List.append_nil]
  | append_singleton below name ih =>
    have hlast := hbelow (below ++ [name]) (List.prefix_refl _) (by simp)
    rw [← List.append_assoc] at hlast ⊢
    rw [nearest_concat, hlast]
    exact ih fun front hfront => hbelow front (hfront.trans (List.prefix_append ..))

theorem nearest_of_isMarked (hplace : place ≠ []) (h : isMarked d ⟨.root, place⟩ = .ok true) :
    nearest d place.reverse = .ok (some ⟨.root, place⟩) := by
  rw [← List.dropLast_append_getLast hplace] at h ⊢
  rw [nearest_concat, h]

/-- A search ends at the first mark on its way up. -/
theorem find_of_isMarked (hplace : place ≠ [])
    (hstart : absolute directory start = .ok ⟨.root, place ++ below⟩)
    (hbelow : ∀ front, front <+: below → front ≠ [] →
      isMarked d ⟨.root, place ++ front⟩ = .ok false)
    (h : isMarked d ⟨.root, place⟩ = .ok true) :
    find d directory none start = .ok ⟨.root, place⟩ := by
  simp only [find, hstart, nearest_append hbelow, nearest_of_isMarked hplace h, Option.getD_some]

end WorkspaceRoot

namespace Settings

variable {d prepared after : Disk} {root : FilePath} {updates : Fields} {e : Failure}

/-- The directory of the settings is missing and can be made. -/
def MakesDirectory (d : Disk) (root : FilePath) : Prop :=
  d.node? (directoryPlace root) = none ∧ ∃ prepared, prepare d root = .ok prepared

theorem MakesDirectory.prepare_eq (h : MakesDirectory d root) :
    prepare d root = .ok (d.set (directoryPlace root) (.directory d.umask.directoryMode)) := by
  obtain ⟨hnone, prepared, hprepare⟩ := h
  obtain ⟨_, _, m, hm⟩ := hasDirectory_of_prepare hprepare
  obtain ⟨_, rfl | ⟨_, _, rfl⟩⟩ := of_prepare hprepare
  · rw [hnone] at hm
    cases hm
  · exact hprepare

section Limited

variable [NestingLimit]

theorem disk_of_write_error (h : write d root updates = (.error e, after)) :
    (∃ fault, prepare d root = .error fault) ∧ after = d ∨ prepare d root = .ok after := by
  unfold write at h
  split at h
  · next fault hprepare => exact Or.inl ⟨⟨fault, hprepare⟩, (Prod.mk.inj h).2.symm⟩
  · next prepared hprepare =>
    refine Or.inr ?_
    split at h
    · exact (Prod.mk.inj h).2 ▸ hprepare
    · split at h
      · exact (Prod.mk.inj h).2 ▸ hprepare
      · cases h

theorem MakesDirectory.prepare_of_write_error (h : MakesDirectory d root)
    (hwrite : write d root updates = (.error e, after)) : prepare d root = .ok after := by
  obtain ⟨⟨fault, herror⟩, _⟩ | hok := disk_of_write_error hwrite
  · rw [h.prepare_eq] at herror
    cases herror
  · exact hok

/-- Updates that are refused where the directory has been made are no valid settings over the
defaults, or the path of the file is too long. -/
theorem fault_of_made (hd : d.WellFormed) (hmakes : MakesDirectory d root)
    (h : write d root updates = (.error e, after)) : Disk.isOverlong (file root).toText = true ∨
      ∃ fault, flaw? (defaults.putAll updates) = some fault ∧ e = .badConfig fault := by
  have hprepare := hmakes.prepare_eq
  obtain ⟨hname, hsame | ⟨hp, hnone, -⟩⟩ := of_prepare hprepare
  · have hself := Disk.node?_set_self d (directoryPlace root) (.directory d.umask.directoryMode)
    rw [hsame, hmakes.1] at hself
    cases hself
  · cases hlong : Disk.isOverlong (file root).toText with
    | true => exact Or.inl rfl
    | false =>
      refine Or.inr ?_
      obtain ⟨hstored, hwrite⟩ := of_made hd hlong hname hp hnone
      obtain ⟨written, hwritten⟩ :=
        hwrite ⟨(Utf8.encode (render (Fields.putAll [] updates))).toArray⟩
      have hnil : (Fields.keys []).Nodup := List.nodup_nil
      have hempty : defaults.putAll (Fields.putAll [] updates) = defaults.putAll updates :=
        Fields.putAll_putAll hnil defaults updates
      simp only [write, hprepare, merged, hstored, validate, hempty] at h
      cases hflaw : flaw? (defaults.putAll updates) with
      | some fault =>
        simp only [hflaw] at h
        exact ⟨fault, rfl, (Except.error.inj (Prod.mk.inj h).1).symm⟩
      | none =>
        simp only [hflaw, hwritten] at h
        cases h

/-- What updates leave that are refused: the disk as it was, unless the directory of the settings
was missing and could be made. Then it is there, the updates are no valid settings over the defaults
or the path of the file is too long, and every search that starts at the root or below it and meets
no other mark before ends at the root. -/
theorem disk_of_rejected_write (hd : d.WellFormed)
    (h : write d root updates = (.error e, after)) :
    (after = d ↔ ¬ MakesDirectory d root) ∧
    (MakesDirectory d root →
      after = d.set (directoryPlace root) (.directory d.umask.directoryMode) ∧
      (Disk.isOverlong (file root).toText = true ∨
        ∃ fault, flaw? (defaults.putAll updates) = some fault ∧ e = .badConfig fault) ∧
      ∀ (directory start : FilePath) (below : List LooseText),
        root.anchor = .root → root.parts ≠ [] →
        WorkspaceRoot.absolute directory start = .ok ⟨.root, root.parts ++ below⟩ →
        (∀ front, front <+: below → front ≠ [] →
          WorkspaceRoot.isMarked after ⟨.root, root.parts ++ front⟩ = .ok false) →
        WorkspaceRoot.find after directory none start = .ok root) := by
  have hmade (hmakes : MakesDirectory d root) :
      after = d.set (directoryPlace root) (.directory d.umask.directoryMode) :=
    Except.ok.inj ((hmakes.prepare_of_write_error h).symm.trans hmakes.prepare_eq)
  refine ⟨⟨?_, fun hno => ?_⟩, fun hmakes => ⟨hmade hmakes, fault_of_made hd hmakes h, ?_⟩⟩
  · rintro rfl hmakes
    have hself := Disk.node?_set_self after (directoryPlace root)
      (.directory after.umask.directoryMode)
    rw [← hmade hmakes, hmakes.1] at hself
    cases hself
  · obtain ⟨_, hsame⟩ | hok := disk_of_write_error h
    · exact hsame
    · obtain ⟨_, hsame | ⟨_, hnone, _⟩⟩ := of_prepare hok
      · exact hsame
      · exact absurd ⟨hnone, after, hok⟩ hno
  · intro directory start below hanchor hparts hstart hbelow
    obtain ⟨anchor, parts⟩ := root
    obtain rfl : anchor = .root := hanchor
    have hdirectory := hasDirectory_of_prepare (hmakes.prepare_of_write_error h)
    have hmarked := WorkspaceRoot.isMarked_of_hasDirectory hdirectory
    exact WorkspaceRoot.find_of_isMarked hparts hstart hbelow hmarked

end Limited

/-- A directory inside another one, and no workspace. -/
def nested : Disk := (Disk.empty.set ["a"] (.directory 0o755)).set ["a", "b"] (.directory 0o755)

theorem wellFormed_nested : nested.WellFormed := by
  have houter : (Disk.empty.set ["a"] (.directory 0o755)).WellFormed :=
    Disk.wellFormed_empty.set (by decide) ⟨_, rfl⟩ (.inl rfl)
  exact houter.set (by decide) ⟨_, rfl⟩ (.inl rfl)

/-- A text where a truth value is asked for is refused, and the directory stays. -/
theorem write_nested : write nested ⟨.root, ["a"]⟩ [(collapseKey, .text "yes")] =
    (.error (.badConfig .badCollapse), nested.set ["a", ".asmsplit"] (.directory 0o755)) := by
  rfl

theorem makesDirectory_nested : MakesDirectory nested ⟨.root, ["a"]⟩ := ⟨rfl, _, rfl⟩

/-- The inner directory is found to belong to a workspace in the outer one. -/
theorem disk_of_rejected_write_of_nested :
    nested.WellFormed ∧ MakesDirectory nested ⟨.root, ["a"]⟩ ∧
    WorkspaceRoot.find (nested.set ["a", ".asmsplit"] (.directory 0o755)) ⟨.root, []⟩ none
      ⟨.relative, ["a", "b"]⟩ = .ok ⟨.root, ["a"]⟩ := by
  refine ⟨wellFormed_nested, makesDirectory_nested, ?_⟩
  have hfind := ((disk_of_rejected_write wellFormed_nested write_nested).2 makesDirectory_nested).2.2
  refine hfind ⟨.root, []⟩ ⟨.relative, ["a", "b"]⟩ ["b"] rfl (by decide) rfl
    fun front hfront hne => ?_
  rcases List.prefix_cons_iff.mp hfront with rfl | ⟨rest, rfl, hrest⟩
  · exact absurd rfl hne
  · obtain rfl := List.prefix_nil.mp hrest
    rfl

/-- Updates that are refused can leave a directory behind, and with it another answer to the search
for the root of the workspace. -/
theorem not_disk_of_rejected_write :
    (¬ ∀ (d : Disk) (root : FilePath) (updates : Fields) (e : Failure) (after : Disk), d.WellFormed →
      write d root updates = (.error e, after) → after = d) ∧
    ¬ ∀ (d : Disk) (root : FilePath) (updates : Fields) (e : Failure) (after : Disk)
      (directory start : FilePath), d.WellFormed → write d root updates = (.error e, after) →
      WorkspaceRoot.find after directory none start = WorkspaceRoot.find d directory none start := by
  constructor
  · intro h
    have hsame := h _ _ _ _ _ wellFormed_nested write_nested
    revert hsame
    decide
  · intro h
    have hfind := h _ _ _ _ _ ⟨.root, []⟩ ⟨.relative, ["a", "b"]⟩ wellFormed_nested write_nested
    revert hfind
    decide

end Settings

end AsmListing
