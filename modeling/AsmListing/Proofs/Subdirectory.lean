import AsmListing.Proofs.Discovery

/-! A search below a directory of a workspace finds what a search of the whole workspace finds there,
with the same globs: every path is that of the whole search without its beginning. -/
namespace AsmListing

variable {d : Disk} {r dirs names files : List LooseText} {file lead t u : LooseText} {n : Node}
  {root : FilePath}

namespace LooseText

/-- The paths that begin with `lead`, without it. -/
def behind (lead : LooseText) (files : List LooseText) : List LooseText :=
  files.filterMap fun file => file.dropPrefix? lead

theorem dropPrefix?_eq_some : t.dropPrefix? lead = some u ↔ t = lead ++ u := by
  simp [List.dropPrefix?_eq_some_iff]

theorem mem_behind_iff : t ∈ behind lead files ↔ lead ++ t ∈ files := by
  simp [behind, dropPrefix?_eq_some]

theorem append_lt_append_iff (lead : LooseText) : lead ++ t < lead ++ u ↔ t < u := by
  induction lead with
  | nil => rfl
  | cons c lead ih => simpa [List.cons_lt_cons_iff] using ih

/-- The order of the paths does not depend on what they all begin with. -/
theorem pairwise_behind (lead : LooseText) (h : files.Pairwise (· < ·)) :
    (behind lead files).Pairwise (· < ·) := by
  refine List.pairwise_filterMap.mpr (h.imp fun {t u} hlt => ?_)
  intro t' ht u' hu
  rw [dropPrefix?_eq_some.mp ht, dropPrefix?_eq_some.mp hu] at hlt
  exact (append_lt_append_iff lead).mp hlt

end LooseText

namespace FilePath

theorem flaw?_join (hroot : root.flaw? = none) (hdirs : ∀ dir ∈ dirs, IsEntryName dir) :
    (root.join ⟨.relative, dirs⟩).flaw? = none := by
  rw [flaw?_eq_none_iff] at hroot ⊢
  intro part hpart
  rcases List.mem_append.mp hpart with hpart | hpart
  · exact hroot part hpart
  · exact (hdirs part hpart).flawless

theorem normalParts_append (hdirs : ∀ dir ∈ dirs, IsEntryName dir) (parts : List LooseText) :
    normalParts (parts ++ dirs) = normalParts parts ++ dirs := by
  rw [normalParts, List.foldl_append]
  exact foldl_stepLexically fun hmem => (hdirs back hmem).ne_back rfl

/-- Taking double dots together leads to the same place. -/
theorem target_normalParts (parts : List LooseText) {anchor anchor' : Anchor} :
    (⟨anchor, normalParts parts⟩ : FilePath).target = (⟨anchor', parts⟩ : FilePath).target := by
  rw [target, target, normalParts_normalParts]

end FilePath

namespace Search

variable {s : Search}

/-- The same search below a directory of the one that is searched. The globs are matched from where
they were. -/
def narrowed (s : Search) (dirs : List LooseText) : Search :=
  { s with root := s.root.join ⟨.relative, dirs⟩ }

/-- What the paths of files below a directory begin with. -/
def leading (dirs : List LooseText) : LooseText := LooseText.joinWith ['/'] dirs ++ [.char '/']

theorem leading_append (hdirs : dirs ≠ []) (hnames : names ≠ []) :
    leading dirs ++ LooseText.joinWith ['/'] names = LooseText.joinWith ['/'] (dirs ++ names) := by
  rw [leading, LooseText.joinWith_append hdirs hnames, List.append_assoc, List.singleton_append]

theorem below_narrowed (hroot : root.flaw? = none) (hdirs : ∀ dir ∈ dirs, IsEntryName dir)
    (extensions exclude : List LooseText) :
    ∃ s, below root none extensions exclude = .ok s ∧
      s.root = ⟨.root, FilePath.normalParts root.parts⟩ ∧
      below (root.join ⟨.relative, dirs⟩) (some root) extensions exclude =
        .ok (s.narrowed dirs) := by
  have hbase : ∀ path ∈ some root, path.flaw? = none := by
    rintro path ⟨⟩
    exact hroot
  have hparts : FilePath.normalParts (root.join ⟨.relative, dirs⟩).parts =
      FilePath.normalParts root.parts ++ dirs := FilePath.normalParts_append hdirs root.parts
  refine ⟨_, below_eq hroot (by simp) extensions exclude, rfl, ?_⟩
  rw [below_eq (FilePath.flaw?_join hroot hdirs) hbase, hparts]
  rfl

/-- The path of a file shows the directories it is in. -/
theorem isEligible_joinWith_iff (hd : d.WellFormed) {name : LooseText}
    (hnames : ∀ part ∈ dirs ++ [name], IsEntryName part) :
    s.IsEligible d (LooseText.joinWith ['/'] (dirs ++ [name])) ↔
      ∃ n, d.node? (s.root.target ++ (dirs ++ [name])) = some n ∧ n.isDirectory = false ∧
        (∀ dir ∈ dirs, dir ∉ skippedDirectories ∧ dir.head? ≠ some (.char '.')) ∧
        s.IsModule (LooseText.joinWith ['/'] (dirs ++ [name])) n := by
  constructor
  · rintro ⟨dirs', name', n, heq, hn, hfile, hdirs, hmodule⟩
    have hnames' : ∀ part ∈ dirs' ++ [name'], IsEntryName part := fun part hpart =>
      hd.isEntryName hn (List.mem_append_right _ hpart)
    have hparts := LooseText.joinWith_inj hnames (by simp) hnames' (by simp) heq
    obtain ⟨rfl, _⟩ := List.append_inj' hparts rfl
    exact ⟨n, hparts ▸ hn, hfile, hdirs, hmodule⟩
  · rintro ⟨n, hn, hfile, hdirs, hmodule⟩
    exact ⟨dirs, name, n, rfl, hn, hfile, hdirs, hmodule⟩

theorem IsEligible.exists_names (hd : d.WellFormed) (h : s.IsEligible d file) :
    ∃ names, names ≠ [] ∧ (∀ name ∈ names, IsEntryName name) ∧
      file = LooseText.joinWith ['/'] names := by
  obtain ⟨dirs, name, n, rfl, hn, _⟩ := h
  exact ⟨dirs ++ [name], by simp,
    fun part hpart => hd.isEntryName hn (List.mem_append_right _ hpart), rfl⟩

section Narrowed

variable (hd : d.WellFormed) (hroot : s.root = ⟨.root, r⟩) (hdirs : ∀ dir ∈ dirs, IsEntryName dir)
  (hne : dirs ≠ []) (hnames : ∀ name ∈ names, IsEntryName name) (hne' : names ≠ [])

include hroot in
theorem root_narrowed (dirs : List LooseText) : (s.narrowed dirs).root = ⟨.root, r ++ dirs⟩ := by
  rw [narrowed, hroot]
  rfl

include hdirs in
theorem target_narrowed : (s.narrowed dirs).root.target = s.root.target ++ dirs :=
  FilePath.target_append hdirs

include hroot hdirs hne hnames hne'

/-- Both searches look at the same file. -/
theorem fullPath_narrowed : (s.narrowed dirs).fullPath (LooseText.joinWith ['/'] names) =
    s.fullPath (leading dirs ++ LooseText.joinWith ['/'] names) := by
  rw [leading_append hne hne', fullPath_joinWith (root_narrowed hroot dirs) hnames hne',
    List.append_assoc,
    fullPath_joinWith hroot (List.forall_mem_append.mpr ⟨hdirs, hnames⟩) (by simp [hne])]

/-- They decide alike whether it is a module. -/
theorem isModule_narrowed : (s.narrowed dirs).IsModule (LooseText.joinWith ['/'] names) n ↔
    s.IsModule (leading dirs ++ LooseText.joinWith ['/'] names) n := by
  have hsuffix : FilePath.suffix (leading dirs ++ LooseText.joinWith ['/'] names) =
      FilePath.suffix (LooseText.joinWith ['/'] names) := by
    rw [leading, List.append_assoc]
    exact FilePath.suffix_append_slash _ _
  have hexcluded : (s.narrowed dirs).isExcluded (LooseText.joinWith ['/'] names) =
      s.isExcluded (leading dirs ++ LooseText.joinWith ['/'] names) := by
    rw [isExcluded, isExcluded, fullPath_narrowed hroot hdirs hne hnames hne']
    rfl
  constructor
  · rintro ⟨hwanted, hspared, hsmall⟩
    rw [isSpared_iff, hexcluded] at hspared
    exact ⟨hsuffix ▸ hwanted, isSpared_iff.mpr hspared, hsmall⟩
  · rintro ⟨hwanted, hspared, hsmall⟩
    rw [isSpared_iff, ← hexcluded] at hspared
    exact ⟨hsuffix ▸ hwanted, isSpared_iff.mpr hspared, hsmall⟩

/-- They can see the same files, unless the whole search cannot see the directory. -/
theorem isVisible_narrowed : s.IsVisible d (leading dirs ++ LooseText.joinWith ['/'] names) ↔
    d.isListable s.root.target dirs = true ∧
      (s.narrowed dirs).IsVisible d (LooseText.joinWith ['/'] names) := by
  have hlistable : d.isListable s.root.target
      (FilePath.ofText (leading dirs ++ LooseText.joinWith ['/'] names)).parts =
        (d.isListable s.root.target dirs && d.isListable (s.root.target ++ dirs)
          (FilePath.ofText (LooseText.joinWith ['/'] names)).parts) := by
    rw [leading_append hne hne', FilePath.ofText_joinWith hnames hne', FilePath.ofText_joinWith
      (List.forall_mem_append.mpr ⟨hdirs, hnames⟩) (by simp [hne]), ← Disk.isListable_append]
  constructor
  · rintro ⟨hstands, hlist⟩
    rw [hlistable, Bool.and_eq_true] at hlist
    refine ⟨hlist.1, ⟨?_, ?_⟩⟩
    · rwa [fullPath_narrowed hroot hdirs hne hnames hne']
    · rw [target_narrowed hdirs]
      exact hlist.2
  · rintro ⟨habove, hstands, hlist⟩
    rw [target_narrowed hdirs] at hlist
    rw [fullPath_narrowed hroot hdirs hne hnames hne'] at hstands
    exact ⟨hstands, by rw [hlistable, habove, hlist]; rfl⟩

include hd in
/-- They pass over the same directories below the one that only the whole search comes to. -/
theorem isEligible_narrowed
    (henters : ∀ dir ∈ dirs, dir ∉ skippedDirectories ∧ dir.head? ≠ some (.char '.')) :
    s.IsEligible d (leading dirs ++ LooseText.joinWith ['/'] names) ↔
      (s.narrowed dirs).IsEligible d (LooseText.joinWith ['/'] names) := by
  have hmodule (n : Node) := isModule_narrowed hroot hdirs hne hnames hne' (n := n)
  obtain ⟨more, name, rfl⟩ := (List.eq_nil_or_concat' names).resolve_left hne'
  rw [leading_append hne hne', ← List.append_assoc] at hmodule ⊢
  have hall : ∀ part ∈ dirs ++ more ++ [name], IsEntryName part := by
    rw [List.append_assoc]
    exact List.forall_mem_append.mpr ⟨hdirs, hnames⟩
  have hmore : (∀ dir ∈ dirs ++ more, dir ∉ skippedDirectories ∧ dir.head? ≠ some (.char '.')) ↔
      ∀ dir ∈ more, dir ∉ skippedDirectories ∧ dir.head? ≠ some (.char '.') := by
    rw [List.forall_mem_append]
    exact and_iff_right henters
  rw [isEligible_joinWith_iff hd hall, isEligible_joinWith_iff hd hnames, target_narrowed hdirs]
  simp only [hmodule, hmore, List.append_assoc]

end Narrowed

/-- The whole search finds a file below a directory exactly where it can see the directory and the
search of the directory finds the file. -/
theorem leading_append_mem_found_iff (hd : d.WellFormed) (hroot : s.root = ⟨.root, r⟩)
    (hdirs : ∀ dir ∈ dirs, IsEntryName dir) (hne : dirs ≠ [])
    (henters : ∀ dir ∈ dirs, dir ∉ skippedDirectories ∧ dir.head? ≠ some (.char '.')) :
    leading dirs ++ t ∈ (s.run d none).found ↔
      d.isListable s.root.target dirs = true ∧ t ∈ ((s.narrowed dirs).run d none).found := by
  rw [mem_found_iff hd hroot, mem_found_iff hd (root_narrowed hroot dirs)]
  constructor
  · rintro ⟨heligible, hvisible⟩
    obtain ⟨all, hsome, hall, heq⟩ := heligible.exists_names hd
    rw [leading, List.append_assoc] at heq
    -- no name has a slash, so the names of the directory come first
    obtain ⟨names, hne', rfl, rfl⟩ :=
      LooseText.exists_joinWith_of_append hdirs hne hall hsome heq
    have hnames := (List.forall_mem_append.mp hall).2
    obtain ⟨habove, hvisible⟩ := (isVisible_narrowed hroot hdirs hne hnames hne').mp hvisible
    exact ⟨habove, (isEligible_narrowed hd hroot hdirs hne hnames hne' henters).mp heligible,
      hvisible⟩
  · rintro ⟨habove, heligible, hvisible⟩
    obtain ⟨names, hne', hnames, rfl⟩ := heligible.exists_names hd
    exact ⟨(isEligible_narrowed hd hroot hdirs hne hnames hne' henters).mpr heligible,
      (isVisible_narrowed hroot hdirs hne hnames hne').mpr ⟨habove, hvisible⟩⟩

/-- The search below a directory of the searched one finds what that one finds there. If the
directory is not seen from above, the whole search finds nothing in it. -/
theorem exists_found_subdirectory (hd : d.WellFormed) (hroot : root.flaw? = none)
    (henters : ∀ dir ∈ dirs, dir ∉ skippedDirectories ∧ dir.head? ≠ some (.char '.'))
    (hne : dirs ≠ []) {mode : Nat} (hn : d.node? (root.target ++ dirs) = some (.directory mode))
    (extensions exclude : List LooseText) :
    ∃ s s', below root none extensions exclude = .ok s ∧
      below (root.join ⟨.relative, dirs⟩) (some root) extensions exclude = .ok s' ∧
      (d.isListable root.target dirs = true →
        (s'.run d none).found = LooseText.behind (leading dirs) (s.run d none).found) ∧
      (d.isListable root.target dirs = false →
        LooseText.behind (leading dirs) (s.run d none).found = []) := by
  have hdirs : ∀ dir ∈ dirs, IsEntryName dir := fun dir hdir =>
    hd.isEntryName hn (List.mem_append_right _ hdir)
  obtain ⟨s, hs, hplace, hs'⟩ := below_narrowed hroot hdirs extensions exclude
  have htarget : s.root.target = root.target := by
    rw [hplace]
    exact FilePath.target_normalParts root.parts
  have hmem (t : LooseText) := leading_append_mem_found_iff (t := t) hd hplace hdirs hne henters
  rw [htarget] at hmem
  refine ⟨s, _, hs, hs', fun hlist => ?_, fun hlist => ?_⟩
  -- both lists increase, so it is enough that they have the same members
  · refine (pairwise_found hd _).eq_of_mem_iff
      (LooseText.pairwise_behind _ (pairwise_found hd s)) fun t => ?_
    rw [LooseText.mem_behind_iff]
    exact ((hmem t).trans (and_iff_right hlist)).symm
  · refine List.eq_nil_iff_forall_not_mem.mpr fun t ht => ?_
    have hsome := ((hmem t).mp (LooseText.mem_behind_iff.mp ht)).1
    rw [hlist] at hsome
    cases hsome

theorem exists_found_subdirectory_of_workspaceDisk :
    workspaceDisk.WellFormed ∧ (⟨.root, ["w"]⟩ : FilePath).flaw? = none ∧
    (∀ dir ∈ (["asm"] : List LooseText),
      dir ∉ skippedDirectories ∧ dir.head? ≠ some (.char '.')) ∧
    workspaceDisk.node? ["w", "asm"] = some (.directory 0o755) ∧
    ∃ s s', below ⟨.root, ["w"]⟩ none [".s"] ["asm/lib*"] = .ok s ∧
      below ⟨.root, ["w", "asm"]⟩ (some ⟨.root, ["w"]⟩) [".s"] ["asm/lib*"] = .ok s' ∧
      (s'.run workspaceDisk none).found =
        LooseText.behind "asm/" (s.run workspaceDisk none).found ∧
      (s'.run workspaceDisk none).found = (["m.s"] : List LooseText) := by
  have hroot : (⟨.root, ["w"]⟩ : FilePath).flaw? = none := by decide
  have henters : ∀ dir ∈ (["asm"] : List LooseText),
      dir ∉ skippedDirectories ∧ dir.head? ≠ some (.char '.') := by
    decide
  have hn : workspaceDisk.node? ["w", "asm"] = some (.directory 0o755) := by decide
  obtain ⟨s, s', hs, hs', hfound, _⟩ := exists_found_subdirectory wellFormed_workspaceDisk hroot
    henters (by decide) hn [".s"] ["asm/lib*"]
  have hsearch : s' = workspaceSearch := by
    have hinner : (⟨.root, ["w", "asm"]⟩ : FilePath).flaw? = none := by decide
    have hbase : ∀ path ∈ some (⟨.root, ["w"]⟩ : FilePath), path.flaw? = none := by
      rintro path ⟨⟩
      exact hroot
    have hnarrow := below_eq hinner hbase [".s"] ["asm/lib*"]
    exact Except.ok.inj (hs'.symm.trans hnarrow)
  exact ⟨wellFormed_workspaceDisk, hroot, henters, hn, s, s', hs, hs', hfound (by decide),
    hsearch ▸ found_workspaceSearch⟩

/-- A workspace that can be gone through but not listed, with sources in a directory. -/
def unlistedDisk : Disk where
  entries := [
    (["w"], .directory 0o311), (["w", "asm"], .directory 0o755),
    (["w", "asm", "m.s"], .file ByteArray.empty 0o644)]

/-- A search of a directory may find more than the whole search, which does not see the
directory. -/
theorem not_found_eq_behind : ¬ ∀ (d : Disk) (root : FilePath) (dirs : List LooseText) (mode : Nat)
    (extensions exclude : List LooseText) (s s' : Search), d.WellFormed →
    root.flaw? = none → dirs ≠ [] →
    (∀ dir ∈ dirs, dir ∉ skippedDirectories ∧ dir.head? ≠ some (.char '.')) →
    d.node? (root.target ++ dirs) = some (.directory mode) →
    below root none extensions exclude = .ok s →
    below (root.join ⟨.relative, dirs⟩) (some root) extensions exclude = .ok s' →
    (s'.run d none).found = LooseText.behind (leading dirs) (s.run d none).found := by
  intro h
  have hunlisted : unlistedDisk.WellFormed := by decide
  have hroot : (⟨.root, ["w"]⟩ : FilePath).flaw? = none := by decide
  have hfound := h unlistedDisk ⟨.root, ["w"]⟩ ["asm"] 0o755 [".s"] []
    ⟨⟨.root, ["w"]⟩, [".s"], [], ⟨.root, ["w"]⟩⟩ ⟨⟨.root, ["w", "asm"]⟩, [".s"], [], ⟨.root, ["w"]⟩⟩
    hunlisted hroot (by decide) (by decide) (by decide) (below_eq hroot (by simp) _ _)
    (below_eq (by decide) (by rintro path ⟨⟩; exact hroot) _ _)
  -- the file found in the directory would have to be found from above
  rw [found_eq_singleton "m.s" (by decide +kernel)] at hfound
  have hmem := LooseText.mem_behind_iff.mp (hfound ▸ List.mem_singleton_self _)
  obtain ⟨_, hvisible⟩ := (mem_found_iff hunlisted rfl).mp hmem
  exact absurd hvisible.listable (by decide)

end Search

end AsmListing
