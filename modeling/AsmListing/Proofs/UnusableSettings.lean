import AsmListing.Proofs.CommandFrame
import AsmListing.Proofs.SettingsMerge

/-! Settings that cannot be used. What is wrong with them is a fault of the settings, which the
program reports, unless their file cannot be looked up, is no UTF-8, or goes beyond the limits of the
JSON reader: then the failure is another one, and it ends the program where it arises. -/
namespace AsmListing

open Json.Reader (Exceeds)

/-- A list of texts is just that. -/
theorem Json.of_asTexts? {j : Json} {ts : List LooseText} (h : j.asTexts? = some ts) :
    j = .list (ts.map .string) := by
  cases j with
  | list items =>
    rw [asTexts?] at h
    induction items generalizing ts with
    | nil =>
      obtain rfl : ts = [] := by simpa using h
      rfl
    | cons x items ih =>
      rw [List.mapM_cons, Option.bind_eq_bind, Option.bind_eq_some_iff] at h
      obtain ⟨t, hx, hrest⟩ := h
      rw [Option.bind_eq_bind, Option.bind_eq_some_iff] at hrest
      obtain ⟨rest, hitems, heq⟩ := hrest
      obtain rfl := Option.some.inj heq
      cases x with
      | string s =>
        obtain rfl := Option.some.inj hx
        rw [List.map_cons, ← Json.list.inj (ih hitems)]
      | _ => cases hx
  | _ => cases h

namespace Settings

variable {d : Disk} {root : FilePath} {current known : Fields} {e : Failure}

/-- Suffixes and globs are lists of texts, and the treatment of blank lines is a truth value. -/
def IsUsable (fields : Fields) : Prop :=
  (∃ ts : List LooseText, fields.get? extensionsKey = some (.list (ts.map .string))) ∧
    (∃ ts : List LooseText, fields.get? excludeKey = some (.list (ts.map .string))) ∧
    ∃ b, fields.get? collapseKey = some (.bool b)

theorem isUsable_of_flaw? (h : flaw? current = none) : IsUsable current := by
  obtain ⟨hextensions, hexclude, hcollapse⟩ := flaw?_eq_none_iff.mp h
  simp only [Option.isSome_iff_exists, Option.bind_eq_some_iff] at hextensions hexclude hcollapse
  obtain ⟨suffixes, _, hsuffixes, hsuffixTexts⟩ := hextensions
  obtain ⟨globs, _, hglobs, hglobTexts⟩ := hexclude
  obtain ⟨b, j, hb, hbool⟩ := hcollapse
  refine ⟨⟨suffixes, ?_⟩, ⟨globs, ?_⟩, b, ?_⟩
  · rw [hsuffixes, Json.of_asTexts? hsuffixTexts]
  · rw [hglobs, Json.of_asTexts? hglobTexts]
  · cases j with
    | bool b' => rw [hb, Option.some.inj hbool]
    | _ => cases hbool

/-- The outcome is settings, or a fault of the settings. -/
def IsSettled : Except Failure Fields → Prop
  | .ok _ | .error (.badConfig _) => True
  | .error _ => False

theorem not_isSettled (h : e.exitCode? = none) : ¬ IsSettled (.error e) := by
  cases e with
  | badConfig fault => cases h
  | _ => exact id

section Limited

variable [NestingLimit]

/-- The file of the settings can be looked up, and if it can be read, its bytes are UTF-8 of a text
within the limits of the JSON reader. -/
def IsLegible (d : Disk) (root : FilePath) : Prop :=
  ∃ found, d.probe (file root) = .ok found ∧ ∀ bytes, found.isSome → d.read (file root) = .ok bytes →
    ∃ text, Utf8.decode bytes.data.toList = .ok text ∧
      ∀ e, Json.ofText text.withLineFeeds ≠ .error (.excess e)

theorem isSettled_parse_iff (name : LooseText) (bytes : Bytes) : IsSettled (parse name bytes) ↔
    ∃ text, Utf8.decode bytes = .ok text ∧
      ∀ e, Json.ofText text.withLineFeeds ≠ .error (.excess e) := by
  unfold parse
  cases Utf8.decode bytes with
  | error e => simp [IsSettled]
  | ok text =>
    dsimp only
    split <;> simp_all [IsSettled]

theorem isSettled_stored_iff : IsSettled (stored d root) ↔ IsLegible d root := by
  cases hprobe : d.probe (file root) with
  | error e => simp [stored, IsLegible, hprobe, IsSettled]
  | ok found =>
    cases found with
    | none => simp [stored, IsLegible, hprobe, IsSettled]
    | some n =>
      cases hread : d.read (file root) with
      | error e => simp [stored, IsLegible, hprobe, hread, IsSettled]
      | ok bytes => simp [stored, IsLegible, hprobe, hread, isSettled_parse_iff]

theorem isSettled_load_iff : IsSettled (load d root) ↔ IsLegible d root := by
  rw [← isSettled_stored_iff]
  unfold load validate
  cases stored d root with
  | error e => exact Iff.rfl
  | ok known =>
    dsimp only
    split <;> simp [IsSettled]

theorem of_parse_error {name : LooseText} {bytes : Bytes} (h : parse name bytes = .error e) :
    (∃ fault, e = .badConfig fault) ∨ (∃ fault, e = .undecodable fault) ∨
      ∃ excess, e = .excessive excess := by
  unfold parse at h
  split at h
  · next fault _ => exact Or.inr (Or.inl ⟨fault, (Except.error.inj h).symm⟩)
  · dsimp only at h
    split at h
    · exact Or.inl ⟨_, (Except.error.inj h).symm⟩
    · next excess _ => exact Or.inr (Or.inr ⟨excess, (Except.error.inj h).symm⟩)
    · cases h
    · exact Or.inl ⟨_, (Except.error.inj h).symm⟩

/-- A failure to load the settings is a fault of them, or one that is not reported. -/
theorem of_load_error (h : load d root = .error e) :
    (∃ fault, e = .badConfig fault) ∨ e.exitCode? = none := by
  unfold load at h
  split at h
  · next e' hstored =>
    obtain rfl := Except.error.inj h
    unfold stored at hstored
    dsimp only at hstored
    split at hstored
    · obtain rfl := Except.error.inj hstored
      exact Or.inr rfl
    · cases hstored
    · split at hstored
      · exact Or.inl ⟨_, (Except.error.inj hstored).symm⟩
      · obtain hfault | ⟨_, rfl⟩ | ⟨_, rfl⟩ := of_parse_error hstored
        · exact Or.inl hfault
        · exact Or.inr rfl
        · exact Or.inr rfl
  · unfold validate at h
    split at h
    · exact Or.inl ⟨_, (Except.error.inj h).symm⟩
    · cases h

end Limited

end Settings

/-! The commands that load the settings. -/

/-- The command loads the settings: a removal, an edit of the settings, or a graph of the modules in
a directory. -/
def Command.LoadsSettings (root : FilePath) (d : Disk) : Command → Prop
  | .remove .. | .config .. => True
  | .deps path .. => ∃ m, d.probe (root.join (FilePath.ofText path)) = .ok (some (.directory m))
  | _ => False

theorem Attempt.bind_of_error {α β : Type} {x : Attempt α} {e : Failure} (h : x.result = .error e)
    (next : α → Attempt β) : (x >>= next) = ⟨x.notes, .error e⟩ := by
  change x.andThen next = _
  rw [andThen, h]

namespace Program

open Call (resolve)

variable {ctx : Context} {s : Surroundings} {d : Disk} {arguments : List LooseText}
  {command : Command} {options : GlobalOptions} {root : FilePath} {e : Failure}

theorem complaint_append {t : Text} (h : t.IsPlain) (message : LooseText) :
    complaint (t ++ message) = t ++ complaint message := by
  rw [complaint, Text.withoutControlSequences_loose_append h, LooseText.escaped,
    List.flatMap_append]
  exact congrArg (· ++ complaint message) (Text.escaped_loose t)

section Limited

variable [NestingLimit]

/-- A command fails with the failure to load the settings, before it has done anything. -/
theorem perform_of_load_error (hloads : command.LoadsSettings ctx.root d)
    (hload : Settings.load d ctx.root = .error e) :
    perform ctx d command = (⟨[], .error e⟩, d) := by
  cases command with
  | remove module name dryRun => simp only [perform, Change.remove, hload, Attempt.fail]
  | config edit display => simp only [perform, Change.config, hload, Attempt.fail]
  | deps path function order full =>
    obtain ⟨m, hprobe⟩ := hloads
    have hpaths : Answer.modulePaths ctx d path = ⟨[], .error e⟩ := by
      have hsettings : (Attempt.ofExcept (Settings.load d ctx.root)).result = .error e := hload
      simp only [Answer.modulePaths, Answer.store, Store.path, hprobe]
      exact Attempt.bind_of_error hsettings _
    have hmodules : Answer.modules ctx d path = ⟨[], .error e⟩ := by
      rw [Answer.modules, hpaths]
      exact Attempt.bind_of_error rfl _
    rw [perform, Answer.deps, hmodules]
    exact congrArg (·, d) (Attempt.bind_of_error rfl _)
  | _ => exact hloads.elim

theorem run_of_load_error
    (hresolve : resolve (checkRoot d s.directory) arguments = .ok (options, command))
    (hroot : workspaceRoot s d options.root = .ok root) (hloads : command.LoadsSettings root d)
    (hload : Settings.load d root = .error e) :
    run s d arguments = finish options.verbose ⟨[], .error e⟩ d := by
  let ctx : Context := ⟨options.json, root, s.listing, s.clock⟩
  have hperform : perform ctx d command = (⟨[], .error e⟩, d) := perform_of_load_error hloads hload
  rw [run_of_command hresolve hroot, hperform]

/-- Whether settings are loaded or refused as faulty depends on their file alone: it can be looked
up, and its bytes, if they can be read, are UTF-8 within the limits of the JSON reader, as they are
if the text has no more brackets and no more digits in a row than these. Every command that loads
faulty settings then reports the fault with exit code 2 and changes nothing. Any other failure to
load them ends the run where it arises. -/
theorem reports_faulty_settings_iff (d : Disk) (root : FilePath) :
    (((∃ current, Settings.load d root = .ok current ∧ Settings.IsUsable current) ∨
        ∃ fault, Settings.load d root = .error (.badConfig fault)) ↔ Settings.IsLegible d root) ∧
    ((∃ found, d.probe (Settings.file root) = .ok found) →
      (∀ bytes, d.read (Settings.file root) = .ok bytes →
        ∃ text, Utf8.decode bytes.data.toList = .ok text ∧
          ¬ Exceeds NestingLimit.levels text.withLineFeeds) →
      Settings.IsLegible d root) ∧
    ∀ (s : Surroundings) (arguments : List LooseText) (options : GlobalOptions) (command : Command)
      (e : Failure), resolve (checkRoot d s.directory) arguments = .ok (options, command) →
      workspaceRoot s d options.root = .ok root → command.LoadsSettings root d →
      Settings.load d root = .error e →
      (run s d arguments).output = [] ∧ (run s d arguments).disk = d ∧
      (Settings.IsLegible d root → ∃ fault, e = .badConfig fault ∧
        (run s d arguments).exitCode = 2 ∧ (run s d arguments).escaped = none ∧
        (run s d arguments).errors =
          "Error: " ++ complaint (fault.message ++ "\n")) ∧
      (¬ Settings.IsLegible d root →
        (run s d arguments).exitCode = 1 ∧ (run s d arguments).escaped = some e ∧
        (run s d arguments).errors = []) := by
  refine ⟨?_, fun ⟨found, hprobe⟩ hread => ⟨found, hprobe, fun bytes _ hbytes => ?_⟩, ?_⟩
  · rw [← Settings.isSettled_load_iff]
    cases hload : Settings.load d root with
    | ok current =>
      obtain ⟨_, _, _, hvalid⟩ := Settings.of_load hload
      simp [Settings.IsSettled, Settings.isUsable_of_flaw? hvalid]
    | error e => cases e <;> simp [Settings.IsSettled]
  · obtain ⟨text, hdecode, hwithin⟩ := hread bytes hbytes
    exact ⟨text, hdecode, fun e htext => hwithin (Json.exceeds_of_ofText htext)⟩
  · intro s arguments options command e hresolve hroot hloads hload
    have hsettled : Settings.IsSettled (Settings.load d root) ↔ Settings.IsLegible d root :=
      Settings.isSettled_load_iff
    rw [hload] at hsettled
    rw [run_of_load_error hresolve hroot hloads hload]
    obtain ⟨fault, rfl⟩ | hcode := Settings.of_load_error hload
    · refine ⟨rfl, rfl, fun _ => ⟨fault, rfl, rfl, rfl, ?_⟩,
        fun hno => absurd (hsettled.mp trivial) hno⟩
      change [] ++ complaint (("Error: " ++ fault.message) ++ "\n") = _
      rw [List.nil_append, List.append_assoc, complaint_append (by decide)]
    · rw [finish_unreported hcode]
      exact ⟨rfl, rfl, fun hlegible => (Settings.not_isSettled hcode (hsettled.mpr hlegible)).elim,
        fun _ => ⟨rfl, rfl, rfl⟩⟩

end Limited

theorem load_emptyList : Settings.load (Settings.settingsFile (Utf8.encode "[]")) ⟨.root, []⟩ =
    .error (.badConfig (.noObject "/.asmsplit/config.json")) := by
  have hplain : Text.IsPlain "[]" := by decide
  have hlist : Json.ofText "[]" = .ok (.list []) := rfl
  rw [Settings.load, Settings.stored_settingsFile, Settings.parse, Utf8.decode_encode]
  simp only [Text.withLineFeeds_of_isPlain hplain, hlist]

/-- A list is a fault of the settings, and reported. -/
theorem reports_faulty_settings_of_emptyList :
    Settings.IsLegible (Settings.settingsFile (Utf8.encode "[]")) ⟨.root, []⟩ ∧
    (run nowhere (Settings.settingsFile (Utf8.encode "[]")) ["config"]).exitCode = 2 := by
  obtain ⟨hiff, _, hruns⟩ :=
    reports_faulty_settings_iff (Settings.settingsFile (Utf8.encode "[]")) ⟨.root, []⟩
  have hlegible := hiff.mp (Or.inr ⟨_, load_emptyList⟩)
  obtain ⟨_, _, hreported, _⟩ := hruns nowhere ["config"] _ _ _ rfl rfl trivial load_emptyList
  obtain ⟨fault, _, hcode, _⟩ := hreported hlegible
  exact ⟨hlegible, hcode⟩

theorem load_loneByte : Settings.load (Settings.settingsFile [0xff]) ⟨.root, []⟩ =
    .error (.undecodable ⟨.invalidStart, 0xff, 0, 1⟩) := by
  have hdecode : Utf8.decode [0xff] = .error ⟨.invalidStart, 0xff, 0, 1⟩ := by decide +kernel
  rw [Settings.load, Settings.stored_settingsFile, Settings.parse, hdecode]

/-- Bytes that are no UTF-8 are no fault of the settings, and end the run with another exit code. -/
theorem not_reports_faulty_settings :
    (¬ ∀ bytes : Bytes,
      (∃ current, Settings.load (Settings.settingsFile bytes) ⟨.root, []⟩ = .ok current) ∨
      ∃ fault, Settings.load (Settings.settingsFile bytes) ⟨.root, []⟩ = .error (.badConfig fault)) ∧
    ¬ ∀ (bytes : Bytes) (e : Failure),
      Settings.load (Settings.settingsFile bytes) ⟨.root, []⟩ = .error e →
      (run nowhere (Settings.settingsFile bytes) ["config"]).exitCode = 2 := by
  constructor
  · intro h
    obtain ⟨current, hload⟩ | ⟨fault, hload⟩ := h [0xff]
    · rw [load_loneByte] at hload
      cases hload
    · rw [load_loneByte] at hload
      cases hload
  · intro h
    have hcode := h [0xff] _ load_loneByte
    revert hcode
    decide +kernel

end Program

end AsmListing
