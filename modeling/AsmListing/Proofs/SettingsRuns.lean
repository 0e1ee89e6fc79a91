import AsmListing.Proofs.TidySettings
import AsmListing.Proofs.UnusableSettings

/-! Edits of the settings, one run after the other, in a workspace that had no settings. The file
holds what the edits have made of the defaults, so it loads, it is tidy, and no run finds a fault in
it. What a run answers in JSON is what is loaded next. -/
namespace AsmListing

/-- A path that a disk takes holds no two surrogates that make a pair. -/
theorem LooseText.isUnpaired_of_pathFlaw? {t : LooseText} (h : t.pathFlaw? = none) :
    t.IsUnpaired := by
  refine List.Pairwise.isChain (List.pairwise_of_forall_mem_list fun p hp q _ ⟨hhigh, _⟩ => ?_)
  refine pathFlaw?_eq_none_iff.mp h p hp (Or.inl ?_)
  cases p with
  | char c => simp at hhigh
  | surrogate i =>
    have hi : ¬ 0x480 ≤ i.val := by
      rw [CodePoint.isHigh, Json.Reader.isHighUnit_iff, CodePoint.value] at hhigh
      omega
    simp [CodePoint.isNameable, CodePoint.isChar, CodePoint.char?, CodePoint.byte?, hi]

namespace WorkspaceRoot

variable {d : Disk} {directory path start : FilePath} {named : Option LooseText}

/-- A path that has been gone along to its end has no flaw. -/
theorem flaw?_of_absolute {p : FilePath} (h : absolute directory path = .ok p) :
    p.flaw? = none := by
  unfold absolute FilePath.resolve FilePath.normal at h
  split at h
  · cases h
  · next hway =>
    obtain rfl := Except.ok.inj h
    generalize directory.join path = q at hway
    rcases List.eq_nil_or_concat' q.parts with hnil | ⟨front, last, hparts⟩
    · rw [hnil]
      rfl
    · have hall := List.findSome?_eq_none_iff.mp hway front.length
      rw [hparts] at hall ⊢
      simpa [List.take_of_length_le] using hall

/-- The marked directory that is found stands above the place where the search began. -/
theorem mem_of_nearest {above : List LooseText} {p : FilePath}
    (h : nearest d above = .ok (some p)) : ∀ part ∈ p.parts, part ∈ above := by
  induction above with
  | nil => cases h
  | cons name above ih =>
    rw [nearest] at h
    split at h
    · cases h
    · obtain rfl := Option.some.inj (Except.ok.inj h)
      exact fun part hpart => List.mem_reverse.mp hpart
    · exact fun part hpart => List.mem_cons_of_mem _ (ih h part hpart)

theorem flaw?_of_find {root : FilePath} (h : find d directory named start = .ok root) :
    root.flaw? = none := by
  unfold find at h
  split at h
  · exact flaw?_of_absolute h
  · split at h
    · cases h
    · next here hhere =>
      have hflaw := flaw?_of_absolute hhere
      split at h
      · cases h
      · next found hfound =>
        obtain rfl := Except.ok.inj h
        cases found with
        | none => exact hflaw
        | some p =>
          rw [FilePath.flaw?_eq_none_iff] at hflaw ⊢
          exact fun part hpart => hflaw part (List.mem_reverse.mp (mem_of_nearest hfound part hpart))

end WorkspaceRoot

theorem Program.flaw?_of_workspaceRoot {s : Surroundings} {d : Disk} {given : Option LooseText}
    {root : FilePath} (h : workspaceRoot s d given = .ok root) : root.flaw? = none := by
  unfold workspaceRoot at h
  split at h
  · exact WorkspaceRoot.flaw?_of_absolute h
  · exact WorkspaceRoot.flaw?_of_find h

theorem Program.print_singleton {t : Text} (h : t.IsPlain) :
    print [t] = (t ++ ['\n'], none) := by
  simp only [print, Text.loose_withoutControlSequences, Text.withoutControlSequences_of_isPlain h,
    LooseText.encodeFault?_loose, Text.characters_loose]

section Limited

variable [NestingLimit]

namespace Settings

variable {d prepared after : Disk} {root path : FilePath} {known updates : Fields}
  {edit : SettingsEdit} {e : Failure} {given more : List LooseText}

/-! One edit. -/

theorem wellFormed_of_write (hd : d.WellFormed) (h : write d root updates = (.ok path, after)) :
    after.WellFormed := by
  obtain ⟨-, prepared, fields, hprepare, -, hwrite⟩ := of_write h
  have hprepared := wellFormed_of_prepare hd hprepare
  have hp := (Disk.write_eq_ok_iff.mp hwrite).1.1
  exact hprepared.write (hprepared.isEntryName_of_place (by decide) hp) hwrite

/-- Updates that make valid settings are refused only where the disk does not let them be written. -/
theorem of_write_error (hd : d.WellFormed) (hstored : stored d root = .ok known)
    (hvalid : flaw? ((defaults.putAll known).putAll updates) = none)
    (h : write d root updates = (.error e, after)) : e.exitCode? = none ∧ ¬ IsWritable d root := by
  constructor
  · unfold write at h
    split at h
    · next fault hprepare =>
      obtain rfl := Except.error.inj (Prod.mk.inj h).1
      exact exitCode?_of_prepare_error hprepare
    · next prepared hprepare =>
      have hprepared := stored_of_prepare hd hstored hprepare
      rw [(merged_eq_ok_iff hprepared).mpr ⟨rfl, hvalid⟩] at h
      dsimp only at h
      split at h
      · obtain rfl := Except.error.inj (Prod.mk.inj h).1
        rfl
      · cases h
  · intro hwritable
    obtain ⟨path, hok⟩ := (write_succeeds_iff hd hstored).mpr ⟨hwritable, hvalid⟩
    rw [h] at hok
    cases hok

/-- The file can be looked up where it can be written. -/
theorem probe_ne_error (hwritable : IsWritable d root) (fault : DiskFault) :
    d.probe (file root) ≠ .error fault := by
  obtain ⟨prepared, hprepare, hp, _⟩ := hwritable
  intro hprobe
  obtain ⟨hname, rfl | ⟨hdirectory, hnone, rfl⟩⟩ := of_prepare hprepare
  · rw [Disk.probe_of_place (flaw?_file hname) hp] at hprobe
    cases hprobe
  · have hlong : Disk.isOverlong (file root).toText = false := by
      cases hlong : Disk.isOverlong (file root).toText with
      | false => rfl
      | true => simp [Disk.place, hlong] at hp
    have hstored := stored_of_missing hlong hdirectory hnone
    simp [stored, hprobe] at hstored

/-- The file holds what edits have made of the defaults, with what was given to them. -/
structure IsEdited (d : Disk) (root : FilePath) (given : List LooseText) (known : Fields) :
    Prop where
  stored : stored d root = .ok known
  flat : known.AreFlat
  tidy : IsTidy given (defaults.putAll known)

theorem IsEdited.mono (h : IsEdited d root given known) (hsub : given ⊆ more) :
    IsEdited d root more known :=
  { h with tidy := h.tidy.mono hsub }

theorem IsEdited.load_eq (h : IsEdited d root given known) :
    load d root = .ok (defaults.putAll known) := by
  simp only [load, h.stored, validate, h.tidy.valid]

/-- The fields of the file after an edit of the settings that it makes with the defaults. -/
def fieldsAfter (edit : SettingsEdit) (known : Fields) : Fields :=
  known.putAll (edit.updates (defaults.putAll known))

/-- What is loaded after an edit is what has been loaded before, under the updates. -/
theorem IsEdited.putAll_fieldsAfter (h : IsEdited d root given known) (edit : SettingsEdit) :
    defaults.putAll (fieldsAfter edit known) =
      (defaults.putAll known).putAll (edit.updates (defaults.putAll known)) :=
  Fields.putAll_putAll (nodup_of_stored h.stored) _ _

/-- An edit that is written has been made of the settings that were there. -/
theorem IsEdited.written (hd : d.WellFormed) (h : IsEdited d root given known)
    (hedit : edit.IsOf given) (hgiven : ∀ t ∈ given, t.IsUnpaired)
    (hwrite : write d root (edit.updates (defaults.putAll known)) = (.ok path, after)) :
    IsEdited after root given (fieldsAfter edit known) := by
  have hupdates := h.tidy.areFlat_updates hedit hgiven
  refine ⟨?_, h.flat.putAll hupdates, ?_⟩
  · exact (stored_merged hd h.stored h.flat.areStorable hupdates.areStorable hwrite).1
  · rw [h.putAll_fieldsAfter]
    exact h.tidy.edited hedit

/-- What runs find that edit the settings of a workspace which had none: the file holds what edits
have made of the defaults, or it is not there and cannot be looked up. -/
structure IsKept (root : FilePath) (given : List LooseText) (d : Disk) : Prop where
  wellFormed : d.WellFormed
  edited : (∃ known, IsEdited d root given known) ∨
    d.node? (filePlace root) = none ∧ ∃ fault, d.probe (file root) = .error fault

theorem IsKept.mono (h : IsKept root given d) (hsub : given ⊆ more) : IsKept root more d :=
  ⟨h.wellFormed, h.edited.imp_left fun ⟨known, hedited⟩ => ⟨known, hedited.mono hsub⟩⟩

theorem isKept_of_missing (hd : d.WellFormed) (hnone : d.node? (directoryPlace root) = none) :
    IsKept root [] d := by
  have hfile : d.node? (filePlace root) = none := by
    rw [filePlace_eq]
    exact hd.child_eq_none hnone fileName
  refine ⟨hd, ?_⟩
  cases hprobe : d.probe (file root) with
  | error fault => exact Or.inr ⟨hfile, fault, rfl⟩
  | ok found =>
    cases found with
    | none =>
      refine Or.inl ⟨[], ?_, by nofun, isTidy_defaults []⟩
      rw [stored, hprobe]
    | some n =>
      obtain ⟨p, hp, hn⟩ := Disk.of_probe hprobe
      obtain rfl := Disk.place_eq hp
      rw [← filePlace, hfile] at hn
      cases hn

theorem load_of_probe_error {fault : DiskFault} (h : d.probe (file root) = .error fault) :
    load d root = .error (.disk fault) := by
  simp only [load, stored, h]

end Settings

namespace Change

open Settings (IsEdited IsWritable defaults fieldsAfter)

variable {ctx : Context} {d : Disk} {known fields updates : Fields} {edit : SettingsEdit}
  {display : Bool} {given : List LooseText}

/-- What an edit of such settings ends with: the settings after it are in the file and are told, or
the disk does not let them be written, and stays what it is. -/
theorem config_of_isEdited (ctx : Context) (hd : d.WellFormed)
    (h : IsEdited d ctx.root given known) (hedit : edit.IsOf given)
    (hgiven : ∀ t ∈ given, t.IsUnpaired) (display : Bool) :
    (∃ e, config ctx d edit display = (Attempt.fail e, d) ∧ e.exitCode? = none ∧
      ¬ IsWritable d ctx.root) ∨
    ∃ after, config ctx d edit display =
        (⟨[], .ok (settingsReport ctx (edit.updates (defaults.putAll known))
          (defaults.putAll (fieldsAfter edit known)) display)⟩, after) ∧
      after.WellFormed ∧ IsEdited after ctx.root given (fieldsAfter edit known) ∧
      (IsWritable d ctx.root → IsWritable after ctx.root) := by
  have htidy := h.tidy.edited hedit
  rw [h.putAll_fieldsAfter]
  unfold config
  simp only [h.load_eq]
  split
  · next hupdates =>
    have hnil : edit.updates (defaults.putAll known) = [] := List.isEmpty_iff.mp hupdates
    refine Or.inr ⟨d, rfl, hd, ?_, id⟩
    rw [fieldsAfter, hnil]
    exact h
  · split
    · next e after hwrite =>
      have hsame : after = d := Settings.disk_of_failed_write hd h.load_eq
        (fun _ _ hmem => Settings.suits_of_mem_updates hmem) hwrite
      obtain ⟨hcode, hwritable⟩ := Settings.of_write_error hd h.stored htidy.valid hwrite
      exact Or.inl ⟨e, by rw [hsame], hcode, hwritable⟩
    · next path after hwrite =>
      refine Or.inr ⟨after, rfl, Settings.wellFormed_of_write hd hwrite, ?_, fun _ => ?_⟩
      · exact h.written hd hedit hgiven hwrite
      · exact (Settings.isWritable_of_write hwrite).2

/-- What is told about flat settings in JSON reads back with the settings in it. -/
theorem ofText_settingsReport (ctx : Context) (hfields : fields.AreFlat) (hkeys : fields.keys.Nodup)
    (hupdates : updates.AreFlat) (hroot : ctx.root.flaw? = none) (hjson : ctx.json = true)
    (display : Bool) :
    ∃ output, Program.print (settingsReport ctx updates fields display) = (output, none) ∧
      ∃ envelope reported : Fields, Json.ofText output = .ok (.object envelope) ∧
        envelope.get? "config" = some (.object reported) ∧
        ∀ key, reported.get? key = fields.get? key := by
  have hunpaired : ∀ key ∈ LooseText.sort updates.keys, key.IsUnpaired := by
    intro key hkey
    obtain ⟨e, he, rfl⟩ := List.mem_map.mp (List.mem_mergeSort.mp hkey)
    exact (hupdates e he).1
  have hsummary : Fields.AreFlat [("updated", Json.strings (LooseText.sort updates.keys))] :=
    List.forall_mem_singleton.mpr ⟨LooseText.isUnpaired_loose "updated", .strings hunpaired⟩
  have hfile : (Settings.file ctx.root).flaw? = none :=
    Settings.flaw?_file (FilePath.flaw?_child hroot (by decide))
  have hpayload : Fields.AreStorable
      [("path", .string (Settings.file ctx.root).toText), ("config", .object fields)] := by
    refine List.forall_mem_cons.mpr ⟨⟨?_, ?_, .string _⟩, ?_⟩
    · exact LooseText.isUnpaired_loose "path"
    · exact .string (LooseText.isUnpaired_of_pathFlaw? hfile)
    · exact List.forall_mem_singleton.mpr
        ⟨LooseText.isUnpaired_loose "config", hfields.isStorable hkeys⟩
  have hstorable := hsummary.isStorable (List.pairwise_singleton _ _)
  rw [settingsReport, if_pos hjson]
  refine ⟨_, Program.print_singleton (Report.isPlain_envelope hstorable hpayload), _, _,
    Report.ofText_envelope hstorable hpayload, ?_, hfields.get?_sortedFields hkeys⟩
  rw [Json.get?_sortedFields (Report.nodup_envelopeFields ..)]
  rfl

end Change

namespace Program

open Call (resolve)
open Settings (IsEdited IsKept IsWritable defaults directoryPlace fieldsAfter filePlace load)
open SettingsEdit (asked dotted)

variable {s : Surroundings} {d start : Disk} {arguments given : List LooseText}
  {options : GlobalOptions} {edit : SettingsEdit} {display : Bool} {root : FilePath}

/-- The arguments ask for an edit of the settings of the workspace at `root`. -/
structure EditsSettings (root : FilePath) (s : Surroundings) (d : Disk)
    (arguments : List LooseText) (options : GlobalOptions) (edit : SettingsEdit) (display : Bool) :
    Prop where
  command : resolve (checkRoot d s.directory) arguments = .ok (options, .config edit display)
  root : workspaceRoot s d options.root = .ok root

/-- The disks that come of `start` by runs that edit the settings of one workspace, with all the
arguments that were given to these runs. -/
inductive SettingsRun (root : FilePath) (start : Disk) : List LooseText → Disk → Prop
  | start : SettingsRun root start [] start
  | edit {given : List LooseText} {d : Disk} {s : Surroundings} {arguments : List LooseText}
    {options : GlobalOptions} {edit : SettingsEdit} {display : Bool}
    (before : SettingsRun root start given d)
    (hedits : EditsSettings root s d arguments options edit display) :
    SettingsRun root start (given ++ arguments) (run s d arguments).disk

/-- A run that edits the settings leaves them edited and tells about it, or the disk does not let
them be written and stays what it is. -/
theorem run_of_isKept (h : IsKept root given d) (hsub : arguments ⊆ given)
    (hgiven : ∀ t ∈ given, t.IsUnpaired)
    (hedits : EditsSettings root s d arguments options edit display) :
    ((run s d arguments).exitCode = 1 ∧ (run s d arguments).disk = d ∧ ¬ IsWritable d root) ∨
    ∃ known after,
      run s d arguments = finish options.verbose
        ⟨[], .ok (Change.settingsReport ⟨options.json, root, s.listing, s.clock⟩
          (edit.updates (defaults.putAll known)) (defaults.putAll (fieldsAfter edit known))
          display)⟩ after ∧
      IsEdited d root given known ∧ after.WellFormed ∧
      IsEdited after root given (fieldsAfter edit known) ∧
      (IsWritable d root → IsWritable after root) := by
  have hedit := (Call.isOf_of_resolve hedits.command).mono hsub
  obtain ⟨known, hedited⟩ | ⟨_, fault, hprobe⟩ := h.edited
  · have hrun := run_of_command hedits.command hedits.root
    obtain ⟨e, hconfig, hcode, hwritable⟩ | ⟨after, hconfig, hafter⟩ :=
      Change.config_of_isEdited ⟨options.json, root, s.listing, s.clock⟩ h.wellFormed hedited hedit
        hgiven display
    · refine Or.inl ?_
      rw [hrun, perform, hconfig, Attempt.fail, finish_unreported hcode]
      exact ⟨rfl, rfl, hwritable⟩
    · refine Or.inr ⟨known, after, ?_, hedited, hafter⟩
      rw [hrun, perform, hconfig]
  · refine Or.inl ?_
    have hload := Settings.load_of_probe_error hprobe
    rw [run_of_load_error hedits.command hedits.root trivial hload, finish_unreported rfl]
    exact ⟨rfl, rfl, fun hwritable => Settings.probe_ne_error hwritable fault hprobe⟩

/-- What one run keeps. -/
theorem isKept_run (h : IsKept root given d) (hsub : arguments ⊆ given)
    (hgiven : ∀ t ∈ given, t.IsUnpaired)
    (hedits : EditsSettings root s d arguments options edit display) :
    IsKept root given (run s d arguments).disk ∧
      (IsWritable d root → IsWritable (run s d arguments).disk root) := by
  obtain ⟨_, hdisk, _⟩ | ⟨known, after, hrun, _, hd, hedited, hwritable⟩ :=
    run_of_isKept h hsub hgiven hedits
  · rw [hdisk]
    exact ⟨h, id⟩
  · rw [hrun, disk_finish]
    exact ⟨⟨hd, Or.inl ⟨_, hedited⟩⟩, hwritable⟩

/-- What any number of runs keep. -/
theorem isKept_of_settingsRun (h : IsKept root [] start) (hruns : SettingsRun root start given d)
    (hgiven : ∀ t ∈ given, t.IsUnpaired) :
    IsKept root given d ∧ (IsWritable start root → IsWritable d root) := by
  induction hruns with
  | start => exact ⟨h, id⟩
  | edit before hedits ih =>
    obtain ⟨hbefore, _⟩ := List.forall_mem_append.mp hgiven
    obtain ⟨hkept, hwritable⟩ := ih hbefore
    obtain ⟨hafter, hstep⟩ := isKept_run (hkept.mono (List.subset_append_left _ _))
      (List.subset_append_right _ _) hgiven hedits
    exact ⟨hafter, fun hstart => hstep (hwritable hstart)⟩

/-- What a run leaves that has edited the settings, and what it tells. It succeeds, unless it is to
print a surrogate of the path of the file or of an argument; in JSON it reports the settings that are
loaded next. -/
structure HasEdited (root : FilePath) (given : List LooseText) (s : Surroundings) (d : Disk)
    (arguments : List LooseText) (options : GlobalOptions) (edit : SettingsEdit)
    (current next : Fields) : Prop where
  before : load d root = .ok current
  eq : next = current.putAll (edit.updates current)
  after : load (run s d arguments).disk root = .ok next
  not_mem_extensions : ∀ t, asked edit.removeExtension = some t →
    dotted t ∉ Settings.extensions next
  not_mem_exclude : ∀ t, asked edit.removeExclude = some t → t ∉ Settings.exclude next
  told : (run s d arguments).exitCode = 0 ∨ options.json = false ∧
    (∃ fault, (run s d arguments).escaped = some (.unprintable fault)) ∧
    ((Settings.file root).toText.HasSurrogate ∨ ∃ t ∈ given, t.HasSurrogate)
  reported : options.json = true → ∃ envelope reported : Fields,
    Json.ofText (run s d arguments).output = .ok (.object envelope) ∧
    envelope.get? "config" = some (.object reported) ∧ ∀ key, reported.get? key = next.get? key

theorem exitCode_ne_two {verbose : Bool} {answer : List LooseText} {after : Disk}
    (hrun : run s d arguments = finish verbose ⟨[], .ok answer⟩ after) :
    (run s d arguments).exitCode ≠ 2 := by
  rw [hrun, finish]
  dsimp only
  split <;> simp

/-- A surrogate in the report on an edit stands in the path of the file or in an argument. -/
theorem hasSurrogate_of_report {ctx : Context} {known : Fields} {t : LooseText}
    (hbefore : IsEdited d ctx.root given known) (hedit : edit.IsOf given)
    (hmem : t ∈ Change.settingsReport ctx (edit.updates (defaults.putAll known))
      (defaults.putAll (fieldsAfter edit known)) display) (ht : t.HasSurrogate) :
    ctx.json = false ∧
      ((Settings.file ctx.root).toText.HasSurrogate ∨ ∃ t ∈ given, t.HasSurrogate) := by
  have htidy := hbefore.tidy.edited hedit
  rw [hbefore.putAll_fieldsAfter] at hmem
  obtain ⟨hjson, hpath | hshown⟩ := Change.hasSurrogate_of_settingsReport hmem ht
  · exact ⟨hjson, Or.inl hpath.2⟩
  · exact ⟨hjson, Or.inr (htidy.exists_hasSurrogate hshown.2)⟩

theorem hasEdited {known : Fields} {after : Disk} (hsub : arguments ⊆ given)
    (hgiven : ∀ t ∈ given, t.IsUnpaired)
    (hedits : EditsSettings root s d arguments options edit display)
    (hrun : run s d arguments = finish options.verbose
      ⟨[], .ok (Change.settingsReport ⟨options.json, root, s.listing, s.clock⟩
        (edit.updates (defaults.putAll known)) (defaults.putAll (fieldsAfter edit known))
        display)⟩ after)
    (hbefore : IsEdited d root given known)
    (hafter : IsEdited after root given (fieldsAfter edit known)) :
    HasEdited root given s d arguments options edit (defaults.putAll known)
      (defaults.putAll (fieldsAfter edit known)) := by
  have hedit := (Call.isOf_of_resolve hedits.command).mono hsub
  have heq := hbefore.putAll_fieldsAfter edit
  have hflat := hbefore.tidy.areFlat_updates hedit hgiven
  refine ⟨hbefore.load_eq, heq, ?_, fun t ht => ?_, fun t ht => ?_, ?_, fun hjson => ?_⟩
  · rw [hrun, disk_finish]
    exact hafter.load_eq
  · rw [heq, Settings.extensions_putAll_updates]
    exact SettingsEdit.not_mem_extensionsAfter ht _
  · rw [heq, Settings.exclude_putAll_updates]
    exact SettingsEdit.not_mem_excludeAfter ht _
  · rw [hrun]
    refine (finish_of_answer options.verbose rfl after).imp_right
      fun ⟨⟨t, hmem, ht⟩, hfault⟩ => ?_
    obtain ⟨hjson, hplace⟩ := hasSurrogate_of_report hbefore hedit hmem ht
    exact ⟨hjson, hfault, hplace⟩
  · have hfields : (defaults.putAll (fieldsAfter edit known)).AreFlat :=
      Settings.areFlat_defaults.putAll hafter.flat
    obtain ⟨output, hprint, hreads⟩ := Change.ofText_settingsReport
      ⟨options.json, root, s.listing, s.clock⟩ hfields (Fields.nodup_putAll (by decide) _) hflat
      (flaw?_of_workspaceRoot hedits.root) hjson display
    rw [hrun, finish]
    simp only [hprint]
    exact hreads

/-- After any number of runs that edit the settings of a workspace which had none, the file is not
there or it loads; the suffixes that are loaded are distinct and have their dots, and the globs are
distinct and not empty. The next such run finds no fault in the settings. It edits them, or the disk
did not let them be written before the first run, and still does not. In no argument may two
surrogates stand that make a pair; none has such a pair if it comes from a system that hands over
bytes. -/
theorem edits_keep_settings_tidy (hd : start.WellFormed)
    (hnone : start.node? (directoryPlace root) = none) (hruns : SettingsRun root start given d)
    (hgiven : ∀ t ∈ given, t.IsUnpaired) :
    (d.node? (filePlace root) = none ∨ ∃ current, load d root = .ok current) ∧
    (∀ current, load d root = .ok current →
      (Settings.extensions current).Nodup ∧
      (∀ x ∈ Settings.extensions current, x.head? = some (.char '.')) ∧
      (Settings.exclude current).Nodup ∧ [] ∉ Settings.exclude current) ∧
    ∀ (s : Surroundings) (arguments : List LooseText) (options : GlobalOptions)
      (edit : SettingsEdit) (display : Bool), (∀ t ∈ arguments, t.IsUnpaired) →
      EditsSettings root s d arguments options edit display →
      (run s d arguments).exitCode ≠ 2 ∧
      ((run s d arguments).exitCode = 1 ∧ (run s d arguments).disk = d ∧
          ¬ IsWritable d root ∧ ¬ IsWritable start root ∨
        ∃ current next,
          HasEdited root (given ++ arguments) s d arguments options edit current next) := by
  obtain ⟨hkept, hkeeps⟩ :=
    isKept_of_settingsRun (Settings.isKept_of_missing hd hnone) hruns hgiven
  refine ⟨?_, fun current hload => ?_, fun s arguments options edit display hunpaired hedits => ?_⟩
  · obtain ⟨known, hedited⟩ | ⟨hfile, _⟩ := hkept.edited
    · exact Or.inr ⟨_, hedited.load_eq⟩
    · exact Or.inl hfile
  · obtain ⟨known, hedited⟩ | ⟨_, fault, hprobe⟩ := hkept.edited
    · obtain rfl := Except.ok.inj (hedited.load_eq.symm.trans hload)
      have htidy := hedited.tidy
      exact ⟨htidy.extensions_nodup, htidy.dotted, htidy.exclude_nodup, htidy.nonempty⟩
    · rw [Settings.load_of_probe_error hprobe] at hload
      cases hload
  · have hall := List.forall_mem_append.mpr ⟨hgiven, hunpaired⟩
    obtain ⟨hexit, hsame, hwritable⟩ | ⟨known, after, hrun, hedited, _, hafter, _⟩ :=
      run_of_isKept (hkept.mono (List.subset_append_left _ _)) (List.subset_append_right _ _) hall
        hedits
    · rw [hexit]
      exact ⟨by decide, Or.inl ⟨rfl, hsame, hwritable, fun hstart => hwritable (hkeeps hstart)⟩⟩
    · have hafter := hasEdited (List.subset_append_right _ _) hall hedits hrun hedited hafter
      exact ⟨exitCode_ne_two hrun, Or.inr ⟨_, _, hafter⟩⟩

end Program

end Limited

namespace Program

open Settings (IsWritable directoryPlace load)

/-- What a first edit leaves of an empty disk. -/
def firstEdited : Disk := (run nowhere Disk.empty ["config", "--add-extension", "x"]).disk

theorem settingsRun_firstEdited : SettingsRun ⟨.root, []⟩ Disk.empty
    ["config", "--add-extension", "x"] firstEdited :=
  .edit .start ⟨rfl, rfl⟩

/-- An edit that adds a suffix and takes it away. -/
def contraryEdit : List LooseText :=
  ["--json", "config", "--add-extension", "y", "--remove-extension", "y"]

/-- The edit succeeds after another one, and the suffix is not there. -/
theorem edits_keep_settings_tidy_of_contraryEdit :
    Disk.empty.WellFormed ∧ Disk.empty.node? (directoryPlace ⟨.root, []⟩) = none ∧
    SettingsRun ⟨.root, []⟩ Disk.empty ["config", "--add-extension", "x"] firstEdited ∧
    (run nowhere firstEdited contraryEdit).exitCode = 0 ∧
    ∃ next envelope reported : Fields,
      load (run nowhere firstEdited contraryEdit).disk ⟨.root, []⟩ = .ok next ∧
      Text.loose ".y" ∉ Settings.extensions next ∧
      Json.ofText (run nowhere firstEdited contraryEdit).output = .ok (.object envelope) ∧
      envelope.get? "config" = some (.object reported) ∧
      ∀ key, reported.get? key = next.get? key := by
  have hnone : Disk.empty.node? (directoryPlace ⟨.root, []⟩) = none := rfl
  have hwritable : IsWritable Disk.empty ⟨.root, []⟩ := ⟨_, rfl, rfl, rfl⟩
  have hfirst : ∀ t ∈ (["config", "--add-extension", "x"] : List LooseText), t.IsUnpaired :=
    fun t ht => LooseText.isUnpaired_of_pathFlaw? (by revert t; decide)
  have hcontrary : ∀ t ∈ contraryEdit, t.IsUnpaired :=
    fun t ht => LooseText.isUnpaired_of_pathFlaw? (by revert t; decide)
  obtain ⟨_, _, hnext⟩ :=
    edits_keep_settings_tidy Disk.wellFormed_empty hnone settingsRun_firstEdited hfirst
  obtain ⟨_, ⟨_, _, _, hno⟩ | ⟨current, next, hedited⟩⟩ :=
    hnext nowhere contraryEdit _ _ _ hcontrary ⟨rfl, rfl⟩
  · exact absurd hwritable hno
  · have hcode := hedited.told.resolve_right fun hquiet => Bool.noConfusion hquiet.1
    obtain ⟨envelope, reported, htext, hreported, hsame⟩ := hedited.reported rfl
    exact ⟨Disk.wellFormed_empty, hnone, settingsRun_firstEdited, hcode, next, envelope, reported,
      hedited.after, hedited.not_mem_extensions "y" rfl, htext, hreported, hsame⟩

end Program

end AsmListing
