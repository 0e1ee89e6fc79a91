import AsmListing.Proofs.Walk

/-! What a search finds. Without a list the files are those that a walk comes to, and either kind of
list passes through the same filter: the suffix, the globs and the size of a file. -/
namespace AsmListing

variable {d : Disk} {p q : Place} {r parts more : List LooseText} {n : Node}

namespace FilePath

variable {path : FilePath}

/-- A path that a disk takes meets no flaw on its way. -/
theorem normal_eq (h : path.flaw? = none) : path.normal = .ok ⟨.root, normalParts path.parts⟩ := by
  have hway : path.flawOnTheWay? = none := by
    rw [flawOnTheWay?, List.findSome?_eq_none_iff]
    intro n _
    rw [flaw?_eq_none_iff] at h ⊢
    exact fun part hpart => h part (List.mem_of_mem_take (mem_of_mem_normalParts hpart))
  rw [normal, hway]

/-- The text of a path begins as those of the paths above it do. -/
theorem toText_root_prefix (r more : List LooseText) :
    (⟨.root, r⟩ : FilePath).toText <+: (⟨.root, r ++ more⟩ : FilePath).toText := by
  have htext (q : List LooseText) :
      (⟨.root, q⟩ : FilePath).toText = .char '/' :: LooseText.joinWith ['/'] q := rfl
  rw [htext, htext, List.cons_prefix_cons]
  refine ⟨rfl, ?_⟩
  by_cases hr : r = []
  · simp [hr, LooseText.joinWith, List.intercalate]
  · by_cases hmore : more = []
    · simp [hmore]
    · rw [LooseText.joinWith_append hr hmore]
      exact List.prefix_append _ _

end FilePath

namespace Disk

theorem isOverlong_of_prefix {t u : LooseText} (h : t <+: u) (hu : isOverlong u = false) :
    isOverlong t = false := by
  obtain ⟨v, rfl⟩ := h
  have hlength : (FileName.bytes (t ++ v)).length =
      (FileName.bytes t).length + (FileName.bytes v).length := by
    simp [FileName.bytes]
  simp only [isOverlong, decide_eq_false_iff_not, hlength] at hu ⊢
  omega

theorem isOverlong_of_place {path : FilePath} (h : d.place path = .ok p) :
    isOverlong path.toText = false := by
  unfold place at h
  split at h
  · cases h
  · next hlong => simpa using hlong

theorem eq_target_of_status {path : FilePath} (h : d.status path = .ok (q, n)) :
    q = path.target ∧ d.node? path.target = some n := by
  obtain ⟨hplace, hn⟩ := status_eq_ok_iff.mp h
  obtain rfl := place_eq hplace
  exact ⟨rfl, hn⟩

/-- Above what a path leads to, the same path leads to directories. -/
theorem exists_status_above {name : LooseText}
    (h : d.status ⟨.root, r ++ name :: more⟩ = .ok (q, n)) :
    d.follow (⟨.root, r⟩ : FilePath).target (name :: more) = .ok q ∧
      ∃ m, d.status ⟨.root, r⟩ = .ok ((⟨.root, r⟩ : FilePath).target, .directory m) := by
  have hplace := (status_eq_ok_iff.mp h).1
  have hfollow : d.follow [] (r ++ name :: more) = .ok q := follow_of_place hplace
  rw [follow_append] at hfollow
  split at hfollow
  · cases hfollow
  · next place hr =>
    obtain ⟨m, hm⟩ := (of_follow_cons hfollow).1
    have hshort := isOverlong_of_prefix (FilePath.toText_root_prefix r (name :: more))
      (isOverlong_of_place hplace)
    have hplace' : d.place ⟨.root, r⟩ = .ok place := by simp [Disk.place, hshort, hr]
    obtain rfl := place_eq hplace'
    exact ⟨hfollow, m, status_eq_ok_iff.mpr ⟨hplace', hm⟩⟩

end Disk

namespace Search

variable {s : Search} {file : LooseText} {root : FilePath} {base : Option FilePath}

/-! The filter. -/

/-- No glob describes the file: neither its path relative to the base, where it stands below the
base, nor its whole path, where it does not. -/
structure IsSpared (s : Search) (file : LooseText) : Prop where
  inside : ∀ rest, s.fullPath file = s.base.join ⟨.relative, rest⟩ →
    ∀ glob ∈ s.exclude, Glob.describes glob (⟨.relative, rest⟩ : FilePath).toText = false
  outside : (∀ rest, s.fullPath file ≠ s.base.join ⟨.relative, rest⟩) →
    ∀ glob ∈ s.exclude, Glob.describes glob (s.fullPath file).toText = false

/-- A file is a module if its suffix is wanted, no glob leaves it out, and it is not too large. -/
structure IsModule (s : Search) (file : LooseText) (n : Node) : Prop where
  wanted : FilePath.suffix file ∈ s.extensions
  spared : s.IsSpared file
  small : size n ≤ maxSize

theorem display_join (base : FilePath) (rest : List LooseText) :
    (base.join ⟨.relative, rest⟩).display base = (⟨.relative, rest⟩ : FilePath).toText := by
  simp [FilePath.display, FilePath.relativeTo?, FilePath.join, FilePath.isAbsolute]

theorem display_of_outside {path base : FilePath} (h : ∀ rest, path ≠ base.join ⟨.relative, rest⟩) :
    path.display base = path.toText := by
  have hnone : path.relativeTo? base = none := by
    rw [FilePath.relativeTo?, if_neg]
    rintro ⟨hanchor, hprefix⟩
    obtain ⟨rest, hrest⟩ := List.isPrefixOf_iff_prefix.mp hprefix
    exact h rest (by cases path; simp_all [FilePath.join, FilePath.isAbsolute])
  simp [FilePath.display, hnone]

theorem isSpared_iff : s.IsSpared file ↔ s.isExcluded file = false := by
  have hexcluded : s.isExcluded file = false ↔ ∀ glob ∈ s.exclude,
      Glob.describes glob ((s.fullPath file).display s.base) = false := by
    simp [isExcluded]
  rw [hexcluded]
  constructor
  · intro h
    by_cases hinside : ∃ rest, s.fullPath file = s.base.join ⟨.relative, rest⟩
    · obtain ⟨rest, hrest⟩ := hinside
      rw [hrest, display_join]
      exact h.inside rest hrest
    · push Not at hinside
      rw [display_of_outside hinside]
      exact h.outside hinside
  · intro h
    refine ⟨fun rest hrest => ?_, fun houtside => ?_⟩
    · rwa [hrest, display_join] at h
    · rwa [display_of_outside houtside] at h

theorem candidate?_eq_some_iff : s.candidate? d file = some n ↔
    (FilePath.suffix file ∈ s.extensions ∧ s.IsSpared file) ∧
      ∃ p, d.status (s.fullPath file) = .ok (p, n) := by
  have htest : (s.hasExtension file && !s.isExcluded file) = true ↔
      FilePath.suffix file ∈ s.extensions ∧ s.IsSpared file := by
    rw [isSpared_iff]
    simp [hasExtension]
  unfold candidate?
  split
  · next h =>
    rw [htest] at h
    cases hstatus : d.status (s.fullPath file) with
    | error e => simp
    | ok found => obtain ⟨p, m⟩ := found; simp [h]
  · next h => simp [← htest, h]

/-- The entry of a list is kept: it has a name, something stands there, and that is a module. -/
def IsKept (s : Search) (d : Disk) (file : LooseText) : Prop :=
  file ≠ [] ∧ ∃ p n, d.status (s.fullPath file) = .ok (p, n) ∧ s.IsModule file n

/-- The filter, as it is computed. -/
def keeps (s : Search) (d : Disk) (file : LooseText) : Bool :=
  (s.candidate? d file).any fun n => decide (size n ≤ maxSize)

theorem keeps_iff : s.keeps d file = true ↔
    ∃ p n, d.status (s.fullPath file) = .ok (p, n) ∧ s.IsModule file n := by
  simp only [keeps, Option.any_eq_true, decide_eq_true_eq, candidate?_eq_some_iff]
  constructor
  · rintro ⟨n, ⟨⟨hwanted, hspared⟩, p, hp⟩, hsmall⟩
    exact ⟨p, n, hp, hwanted, hspared, hsmall⟩
  · rintro ⟨p, n, hp, hmodule⟩
    exact ⟨n, ⟨⟨hmodule.wanted, hmodule.spared⟩, p, hp⟩, hmodule.small⟩

theorem isKept_iff : s.IsKept d file ↔ (file != [] && s.keeps d file) = true := by
  rw [IsKept, ← keeps_iff]
  simp

instance : DecidablePred (s.IsKept d) := fun _ => decidable_of_iff' _ isKept_iff

/-- The sizes are looked up once for the small files and the large ones together. -/
theorem found_run (s : Search) (d : Disk) (listing : Option (List LooseText)) :
    (s.run d listing).found = LooseText.sort
      (((listing.map (·.filter (· != []))).getD (walked d s.root)).filter (s.keeps d)) := by
  simp only [run, List.partition_eq_filter_filter]
  congr 1
  generalize (listing.map (·.filter (· != []))).getD (walked d s.root) = files
  induction files with
  | nil => rfl
  | cons file files ih =>
    cases hfile : s.candidate? d file with
    | none => simpa [keeps, hfile] using ih
    | some n =>
      by_cases hsmall : size n ≤ maxSize
      · simpa [keeps, hfile, hsmall] using ih
      · simpa [keeps, hfile, hsmall] using ih

theorem found_eq_singleton (file : LooseText)
    (h : (walked d s.root).filter (s.keeps d) = [file]) :
    (s.run d none).found = [file] := by
  rw [found_run]
  exact (congrArg LooseText.sort h).trans (List.mergeSort_singleton _)

/-! The walk. -/

theorem enters_iff {name : LooseText} :
    enters name = true ↔ name ∉ skippedDirectories ∧ name.head? ≠ some (.char '.') := by
  simp [enters]

/-- A module below the searched directory: no directory between the two is one that is skipped. -/
def IsEligible (s : Search) (d : Disk) (file : LooseText) : Prop :=
  ∃ dirs name n, file = LooseText.joinWith ['/'] (dirs ++ [name]) ∧
    d.node? (s.root.target ++ (dirs ++ [name])) = some n ∧ n.isDirectory = false ∧
    (∀ dir ∈ dirs, dir ∉ skippedDirectories ∧ dir.head? ≠ some (.char '.')) ∧ s.IsModule file n

/-- The path of the file leads somewhere, and the directories from the searched one down to that
which holds the file can be listed. -/
structure IsVisible (s : Search) (d : Disk) (file : LooseText) : Prop where
  stands : ∃ p n, d.status (s.fullPath file) = .ok (p, n)
  listable : d.isListable s.root.target (FilePath.ofText file).parts = true

theorem IsWalked.exists_node (h : IsWalked d p parts) :
    ∃ n, d.node? (p ++ parts) = some n ∧ n.isDirectory = false := by
  induction h with
  | file _ _ hn hfile => exact ⟨_, hn, hfile⟩
  | enter _ _ _ _ _ _ _ ih => simpa using ih

theorem IsWalked.isEntryName (hd : d.WellFormed) (h : IsWalked d p parts) :
    ∀ name ∈ parts, IsEntryName name := by
  obtain ⟨n, hn, _⟩ := h.exists_node
  intro name hname
  exact hd.isEntryName hn (List.mem_append_right p hname)

/-- The walk goes as deep as there is anything. -/
theorem IsWalked.length_le (h : IsWalked d p parts) : parts.length ≤ d.depthBound := by
  obtain ⟨n, hn, _⟩ := h.exists_node
  have hlt := Disk.length_lt_depthBound hn
  rw [List.length_append] at hlt
  omega

theorem mem_walked (hd : d.WellFormed) : file ∈ walked d root ↔
    (∃ m, d.status root = .ok (root.target, .directory m)) ∧
      ∃ parts, IsWalked d root.target parts ∧ LooseText.joinWith ['/'] parts = file := by
  unfold walked
  split
  · next p m hstatus =>
    obtain ⟨rfl, _⟩ := Disk.eq_target_of_status hstatus
    simp only [List.mem_map, mem_walk hd, hstatus]
    constructor
    · rintro ⟨parts, ⟨hwalked, _⟩, rfl⟩
      exact ⟨⟨m, rfl⟩, parts, hwalked, rfl⟩
    · rintro ⟨_, parts, hwalked, rfl⟩
      exact ⟨parts, ⟨hwalked, hwalked.length_le⟩, rfl⟩
  · next hno =>
    simp only [List.not_mem_nil, false_iff, not_and]
    rintro ⟨m, hstatus⟩
    exact (hno _ m hstatus).elim

theorem nodup_walked (hd : d.WellFormed) (root : FilePath) : (walked d root).Nodup := by
  unfold walked
  split
  · next p m _ =>
    refine List.Nodup.map_on (fun parts h more h' heq => ?_) (nodup_walk hd _ p)
    have hparts := ((mem_walk hd).mp h).1
    have hmore := ((mem_walk hd).mp h').1
    exact LooseText.joinWith_inj (hparts.isEntryName hd) hparts.ne_nil (hmore.isEntryName hd)
      hmore.ne_nil heq
  · exact .nil

theorem fullPath_joinWith (hroot : s.root = ⟨.root, r⟩) (hnames : ∀ name ∈ parts, IsEntryName name)
    (hne : parts ≠ []) : s.fullPath (LooseText.joinWith ['/'] parts) = ⟨.root, r ++ parts⟩ := by
  rw [fullPath, hroot, FilePath.ofText_joinWith hnames hne]
  rfl

/-- Where the path of a file leads to it, its directories decide whether a walk comes to it. -/
theorem isWalked_iff_of_status {dirs : List LooseText} {name : LooseText}
    (hnames : ∀ part ∈ dirs ++ [name], IsEntryName part)
    (h : d.status ⟨.root, r ++ (dirs ++ [name])⟩ = .ok (p, n)) :
    (∃ m, d.status ⟨.root, r⟩ = .ok ((⟨.root, r⟩ : FilePath).target, .directory m)) ∧
    d.node? ((⟨.root, r⟩ : FilePath).target ++ (dirs ++ [name])) = some n ∧
    (IsWalked d (⟨.root, r⟩ : FilePath).target (dirs ++ [name]) ↔
      (∀ dir ∈ dirs, enters dir = true) ∧
        d.isListable (⟨.root, r⟩ : FilePath).target (dirs ++ [name]) = true ∧
        n.isDirectory = false) := by
  obtain ⟨_, hn⟩ := Disk.eq_target_of_status h
  rw [FilePath.target_append hnames] at hn
  obtain ⟨first, more, hmore⟩ := List.exists_cons_of_ne_nil (List.append_ne_nil_of_right_ne_nil
    dirs (List.cons_ne_nil name []))
  obtain ⟨hfollow, hroot⟩ := Disk.exists_status_above (hmore ▸ h)
  rw [← hmore] at hfollow
  refine ⟨hroot, hn, ?_⟩
  rw [isWalked_iff (fun dir hdir => hnames dir (List.mem_append_left _ hdir)) hfollow]
  simp [hn]

/-- Without a list, a search finds the modules below its directory that can be seen. -/
theorem mem_found_iff (hd : d.WellFormed) (hroot : s.root = ⟨.root, r⟩) :
    file ∈ (s.run d none).found ↔ s.IsEligible d file ∧ s.IsVisible d file := by
  rw [found_run, LooseText.sort, List.mem_mergeSort, List.mem_filter, keeps_iff]
  simp only [Option.map_none, Option.getD_none, mem_walked hd]
  constructor
  · rintro ⟨⟨_, parts, hwalked, rfl⟩, p, n, hstatus, hmodule⟩
    have hnames := hwalked.isEntryName hd
    obtain ⟨dirs, name, rfl⟩ := (List.eq_nil_or_concat' parts).resolve_left hwalked.ne_nil
    have hstands := hstatus
    rw [fullPath_joinWith hroot hnames hwalked.ne_nil] at hstatus
    rw [hroot] at hwalked
    obtain ⟨_, hn, hiff⟩ := isWalked_iff_of_status hnames hstatus
    obtain ⟨henters, hlist, hfile⟩ := hiff.mp hwalked
    refine ⟨⟨dirs, name, n, rfl, by rw [hroot]; exact hn, hfile, fun dir hdir => ?_, hmodule⟩,
      ⟨⟨p, n, hstands⟩, ?_⟩⟩
    · exact enters_iff.mp (henters dir hdir)
    · rw [hroot, FilePath.ofText_joinWith hnames hwalked.ne_nil]
      exact hlist
  · rintro ⟨⟨dirs, name, n, rfl, hn, hfile, hdirs, hmodule⟩, ⟨p, m, hstatus⟩, hlist⟩
    rw [hroot] at hn hlist
    have hne : dirs ++ [name] ≠ [] := by simp
    have hnames : ∀ part ∈ dirs ++ [name], IsEntryName part :=
      fun part hpart => hd.isEntryName hn (List.mem_append_right _ hpart)
    have hstands := hstatus
    rw [fullPath_joinWith hroot hnames hne] at hstatus
    rw [FilePath.ofText_joinWith hnames hne] at hlist
    obtain ⟨habove, hm, hiff⟩ := isWalked_iff_of_status hnames hstatus
    obtain rfl : m = n := Option.some.inj (hm.symm.trans hn)
    have hwalked := hiff.mpr ⟨fun dir hdir => enters_iff.mpr (hdirs dir hdir), hlist, hfile⟩
    rw [hroot]
    exact ⟨⟨habove, _, hwalked, rfl⟩, p, m, hstands, hmodule⟩

/-! Order. -/

theorem pairwise_found (hd : d.WellFormed) (s : Search) :
    (s.run d none).found.Pairwise (· < ·) := by
  rw [found_run]
  exact LooseText.pairwise_sort_of_nodup ((nodup_walked hd s.root).filter _)

theorem pairwise_le_found (s : Search) (d : Disk) (listing : Option (List LooseText)) :
    (s.run d listing).found.Pairwise (· ≤ ·) := by
  rw [found_run]
  exact LooseText.pairwise_sort _

theorem perm_found (s : Search) (d : Disk) (files : List LooseText) :
    (s.run d (some files)).found.Perm (files.filter fun file => s.IsKept d file) := by
  rw [found_run]
  refine (List.mergeSort_perm _ _).trans (List.Perm.of_eq ?_)
  rw [Option.map_some, Option.getD_some, List.filter_filter]
  refine List.filter_congr fun file _ => ?_
  rw [Bool.and_comm, Bool.eq_iff_iff, decide_eq_true_eq, isKept_iff]

/-! The search itself. -/

theorem below_eq (hroot : root.flaw? = none) (hbase : ∀ path ∈ base, path.flaw? = none)
    (extensions exclude : List LooseText) :
    below root base extensions exclude = .ok ⟨⟨.root, FilePath.normalParts root.parts⟩,
      extensions, exclude, ⟨.root, FilePath.normalParts (base.getD root).parts⟩⟩ := by
  cases base with
  | none => simp [below, FilePath.normal_eq hroot, Bind.bind, Except.bind, pure, Except.pure]
  | some path =>
    simp [below, FilePath.normal_eq hroot, FilePath.normal_eq (hbase path rfl), Bind.bind,
      Except.bind, pure, Except.pure]

/-- What a search finds. Without a list these are, in increasing order, the modules below its
directory that can be seen. Of the entries of a list they are those that are kept, in order, each as
often as it is listed. -/
structure FindsModules (s : Search) (d : Disk) : Prop where
  increasing : (s.run d none).found.Pairwise (· < ·)
  mem_iff : ∀ file, file ∈ (s.run d none).found ↔ s.IsEligible d file ∧ s.IsVisible d file
  sorted : ∀ files, (s.run d (some files)).found.Pairwise (· ≤ ·)
  perm : ∀ files, (s.run d (some files)).found.Perm (files.filter fun file => s.IsKept d file)

theorem findsModules (hd : d.WellFormed) (hroot : s.root = ⟨.root, r⟩) : s.FindsModules d where
  increasing := pairwise_found hd s
  mem_iff _ := mem_found_iff hd hroot
  sorted files := pairwise_le_found s d (some files)
  perm := perm_found s d

/-- There is a search below every directory, with or without a base of its own for the globs, and it
finds the modules. -/
theorem exists_findsModules (hd : d.WellFormed) (hroot : root.flaw? = none)
    (hbase : ∀ path ∈ base, path.flaw? = none) (extensions exclude : List LooseText) :
    ∃ s, below root base extensions exclude = .ok s ∧
      s = ⟨⟨.root, FilePath.normalParts root.parts⟩, extensions, exclude,
        ⟨.root, FilePath.normalParts (base.getD root).parts⟩⟩ ∧ s.FindsModules d :=
  ⟨_, below_eq hroot hbase extensions exclude, rfl, findsModules hd rfl⟩

/-- A workspace with a directory of sources, one of which is left out, and a directory that is
skipped. -/
def workspaceDisk : Disk where
  entries := [
    (["w"], .directory 0o755), (["w", "asm"], .directory 0o755),
    (["w", "asm", "m.s"], .file ByteArray.empty 0o644),
    (["w", "asm", "lib.s"], .file ByteArray.empty 0o644),
    (["w", "asm", "build"], .directory 0o755),
    (["w", "asm", "build", "o.s"], .file ByteArray.empty 0o644)]

theorem wellFormed_workspaceDisk : workspaceDisk.WellFormed := by decide

/-- Sources in one directory of the workspace. -/
def workspaceSearch : Search :=
  ⟨⟨.root, ["w", "asm"]⟩, [".s"], ["asm/lib*"], ⟨.root, ["w"]⟩⟩

/-- Globs for the whole workspace also count where only a part of it is searched. -/
theorem found_workspaceSearch :
    (workspaceSearch.run workspaceDisk none).found = (["m.s"] : List LooseText) :=
  found_eq_singleton "m.s" (by decide +kernel)

theorem exists_findsModules_of_workspaceDisk :
    workspaceDisk.WellFormed ∧ (⟨.root, ["w", "asm"]⟩ : FilePath).flaw? = none ∧
    (∀ path ∈ some (⟨.root, ["w"]⟩ : FilePath), path.flaw? = none) ∧
    ∃ s, below ⟨.root, ["w", "asm"]⟩ (some ⟨.root, ["w"]⟩) [".s"] ["asm/lib*"] = .ok s ∧
      s.FindsModules workspaceDisk ∧
      (s.run workspaceDisk none).found = (["m.s"] : List LooseText) := by
  have hroot : (⟨.root, ["w", "asm"]⟩ : FilePath).flaw? = none := by decide
  have hbase : ∀ path ∈ some (⟨.root, ["w"]⟩ : FilePath), path.flaw? = none := by
    rintro path ⟨⟩
    decide
  obtain ⟨s, hs, heq, hfinds⟩ := exists_findsModules wellFormed_workspaceDisk hroot hbase [".s"]
    ["asm/lib*"]
  exact ⟨wellFormed_workspaceDisk, hroot, hbase, s, hs, hfinds, heq ▸ found_workspaceSearch⟩

/-- A directory that can be neither listed nor gone through, with a source in it. -/
def closedDisk : Disk where
  entries := [
    (["w"], .directory 0o755), (["w", "asm"], .directory 0),
    (["w", "asm", "m.s"], .file ByteArray.empty 0o644)]

/-- A search does not find all modules that are there: those in a closed directory are passed
over. -/
theorem not_mem_found_iff_isEligible : ¬ ∀ (d : Disk) (root : FilePath) (base : Option FilePath)
    (extensions exclude : List LooseText) (s : Search) (file : LooseText),
    d.WellFormed → below root base extensions exclude = .ok s →
    (file ∈ (s.run d none).found ↔ s.IsEligible d file) := by
  intro h
  have hclosed : closedDisk.WellFormed := by decide
  have hs : below ⟨.root, ["w"]⟩ none [".s"] [] =
      .ok ⟨⟨.root, ["w"]⟩, [".s"], [], ⟨.root, ["w"]⟩⟩ := below_eq (by decide) (by simp) _ _
  have hiff := h closedDisk _ none _ [] _ "asm/m.s" hclosed hs
  have heligible : Search.IsEligible ⟨⟨.root, ["w"]⟩, [".s"], [], ⟨.root, ["w"]⟩⟩ closedDisk
      "asm/m.s" :=
    ⟨["asm"], "m.s", .file ByteArray.empty 0o644, by decide, by decide, rfl, by decide, by decide,
      isSpared_iff.mpr rfl, by decide⟩
  have hvisible := ((mem_found_iff hclosed rfl).mp (hiff.mpr heligible)).2
  exact absurd hvisible.listable (by decide)

end Search

end AsmListing
