import AsmListing.Proofs.Tree
import AsmListing.Proofs.ValidSettings

/-! Writing the settings of a workspace. A write that succeeds changes one file, and makes the
directory of it where that is missing. Where that has been made there was no file in it, and nothing
that follows can be refused; so a write that fails has changed nothing. -/
namespace AsmListing

namespace Settings

variable {d prepared after : Disk} {root path : FilePath}
  {current known updates : Fields} {e : Failure}

/-- The place of the directory of the settings. -/
def directoryPlace (root : FilePath) : Place := (directory root).target

/-- The place of the file with the settings. -/
def filePlace (root : FilePath) : Place := (file root).target

theorem filePlace_eq (root : FilePath) : filePlace root = directoryPlace root ++ [fileName] :=
  FilePath.target_child (by decide) (directory root)

/-- What can be said of the directory can be said of the file. -/
theorem flaw?_file (h : (directory root).flaw? = none) : (file root).flaw? = none :=
  FilePath.flaw?_child h (by decide)

theorem prepare_eq_ok_iff : prepare d root = .ok prepared ↔
    (directory root).flaw? = none ∧ makeDirectory d root = .ok prepared := by
  unfold prepare
  cases (directory root).flaw? with
  | some flaw => simp
  | none => simp [mapError_eq_ok_iff]

/-- The directory of the settings is there, or it has been made where nothing stood. -/
theorem of_prepare (h : prepare d root = .ok prepared) :
    (directory root).flaw? = none ∧ (prepared = d ∨
      d.place (directory root) = .ok (directoryPlace root) ∧
        d.node? (directoryPlace root) = none ∧
        prepared = d.set (directoryPlace root) (.directory d.umask.directoryMode)) := by
  obtain ⟨hname, hmake⟩ := prepare_eq_ok_iff.mp h
  refine ⟨hname, ?_⟩
  unfold makeDirectory at hmake
  split at hmake
  · next made hadd =>
    obtain rfl := Except.ok.inj hmake
    obtain ⟨p, hp, hnone, _, rfl⟩ := Disk.of_add hadd
    obtain rfl := Disk.place_eq hp
    exact Or.inr ⟨hp, hnone, rfl⟩
  · split at hmake
    · cases hmake
    · split at hmake
      · cases hmake
      · exact Or.inl (Except.ok.inj hmake).symm
      · cases hmake

theorem wellFormed_of_prepare (hd : d.WellFormed) (h : prepare d root = .ok prepared) :
    prepared.WellFormed := by
  obtain ⟨_, rfl | ⟨hp, _, rfl⟩⟩ := of_prepare h
  · exact hd
  · exact hd.set_of_place hp (hd.isEntryName_of_place (by decide) hp) (.inl rfl)

theorem exitCode?_of_prepare_error (h : prepare d root = .error e) : e.exitCode? = none := by
  unfold prepare at h
  split at h
  · obtain rfl := Except.error.inj h
    rfl
  · cases hmake : makeDirectory d root with
    | ok made =>
      rw [hmake] at h
      cases h
    | error fault =>
      rw [hmake] at h
      obtain rfl := Except.error.inj h
      rfl

variable [NestingLimit]

/-- The updates make valid settings where no file has been yet. -/
theorem merged_eq_ok (hstored : stored d root = .ok [])
    (hs : ∀ key value, (key, value) ∈ updates → Suits key value) :
    merged d root updates = .ok (Fields.putAll [] updates) := by
  have hvalid : flaw? (defaults.putAll (Fields.putAll [] updates)) = none := by
    refine flaw?_putAll flaw?_defaults fun key value hmem => ?_
    rcases Fields.mem_putAll hmem with hnil | hmem
    · cases hnil
    · exact hs key value hmem
  simp only [merged, hstored, validate, hvalid]

/-- Settings that have been loaded are those in the file over the defaults. -/
theorem of_load (h : load d root = .ok current) :
    ∃ known, stored d root = .ok known ∧ current = defaults.putAll known ∧ flaw? current = none := by
  unfold load at h
  split at h
  · cases h
  · next known hstored =>
    unfold validate at h
    split at h
    · cases h
    · next hvalid =>
      obtain rfl := Except.ok.inj h
      exact ⟨known, hstored, rfl, hvalid⟩

theorem isOverlong_of_stored (hname : (file root).flaw? = none)
    (h : stored d root = .ok known) : Disk.isOverlong (file root).toText = false := by
  cases hlong : Disk.isOverlong (file root).toText with
  | false => rfl
  | true => simp [stored, Disk.probe, FilePath.isNameable, hname, Disk.status, Disk.place, hlong,
      Refusal.meansAbsence] at h

/-- A path into a directory that is missing leads nowhere. -/
theorem stored_of_missing (hlong : Disk.isOverlong (file root).toText = false)
    (hp : d.place (directory root) = .ok (directoryPlace root))
    (hnone : d.node? (directoryPlace root) = none) : stored d root = .ok [] := by
  have hparts : (file root).parts = (directory root).parts ++ [fileName] := rfl
  have hplace : d.place (file root) = .error .noEntry := by
    simp [Disk.place, hlong, hparts, Disk.follow_append, Disk.follow_of_place hp, Disk.follow,
      hnone]
  cases hname : (file root).isNameable <;>
    simp [stored, Disk.probe, hname, Disk.status, hplace, Refusal.meansAbsence]

/-- In a directory that has just been made there is no file, and one can be made. -/
theorem of_made (hd : d.WellFormed) (hlong : Disk.isOverlong (file root).toText = false)
    (hname : (directory root).flaw? = none)
    (hp : d.place (directory root) = .ok (directoryPlace root))
    (hnone : d.node? (directoryPlace root) = none) :
    stored (d.set (directoryPlace root) (.directory d.umask.directoryMode)) root = .ok [] ∧
      ∀ bytes, ∃ written,
        (d.set (directoryPlace root) (.directory d.umask.directoryMode)).write (file root) bytes =
          .ok written := by
  -- the owner may go through the directory and change what stands in it
  have hsearch : d.umask.directoryMode.testBit 6 = true :=
    d.umask.testBit_directoryMode (by decide) (by decide)
  have hwrite : d.umask.directoryMode.testBit 7 = true :=
    d.umask.testBit_directoryMode (by decide) (by decide)
  generalize d.umask.directoryMode = mode at hsearch hwrite ⊢
  have hplace : (d.set (directoryPlace root) (.directory mode)).place (file root) =
      .ok (directoryPlace root ++ [fileName]) :=
    Disk.place_child_set hp hnone hsearch hlong (by decide) (by decide)
  have hchild : (d.set (directoryPlace root) (.directory mode)).node?
      (directoryPlace root ++ [fileName]) = none := by
    rw [Disk.node?_set_of_ne (by simp)]
    exact hd.child_eq_none hnone fileName
  have hopen : (d.set (directoryPlace root) (.directory mode)).isOpenAbove
      (directoryPlace root ++ [fileName]) = true := by
    rw [Disk.isOpenAbove, List.dropLast_concat, Disk.node?_set_self]
    simp [Node.isWritable, Node.isSearchable, Node.mode, hwrite, hsearch]
  have hprobe := Disk.probe_of_place (flaw?_file hname) hplace
  rw [hchild] at hprobe
  exact ⟨by rw [stored, hprobe], fun bytes => ⟨_, Disk.write_of_missing hplace hchild hopen bytes⟩⟩

/-- A write that fails has changed nothing, if the settings could be read before it. -/
theorem disk_of_failed_write (hd : d.WellFormed) (hload : load d root = .ok current)
    (hs : ∀ key value, (key, value) ∈ updates → Suits key value)
    (h : write d root updates = (.error e, after)) : after = d := by
  cases hprepare : prepare d root with
  | error e =>
    simp only [write, hprepare] at h
    exact (Prod.mk.inj h).2.symm
  | ok prepared =>
    obtain ⟨hname, rfl | ⟨hp, hnone, rfl⟩⟩ := of_prepare hprepare
    · simp only [write, hprepare] at h
      split at h
      · exact (Prod.mk.inj h).2.symm
      · split at h
        · exact (Prod.mk.inj h).2.symm
        · cases h
    · obtain ⟨known, hstored, _⟩ := of_load hload
      have hlong := isOverlong_of_stored (flaw?_file hname) hstored
      obtain ⟨hempty, hwrite⟩ := of_made hd hlong hname hp hnone
      obtain ⟨written, hwritten⟩ :=
        hwrite ⟨(Utf8.encode (render (Fields.putAll [] updates))).toArray⟩
      simp only [write, hprepare, merged_eq_ok hempty hs, hwritten] at h
      cases h

end Settings

end AsmListing
