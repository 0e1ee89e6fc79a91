import AsmListing.Proofs.PathText
import AsmListing.Proofs.Replacement
import Mathlib.Data.List.Nodup

/-! Trees of files and directories: places are unique, their names are names of entries, and whatever
stands below the root stands in a directory. The calls of the disk keep it so. Writing a file leaves
everything else as it was. -/
namespace AsmListing.Disk

variable {d d' : Disk} {p q : Place} {name : LooseText} {path source : FilePath}
  {bytes : ByteArray} {n m : Node} {mode : Nat} {room : Option Nat}

/-- What a disk can hold. -/
structure WellFormed (d : Disk) : Prop where
  unique : (d.entries.map Prod.fst).Nodup
  named : ∀ e ∈ d.entries, ∀ name ∈ e.1, IsEntryName name
  /-- Each entry stands in a directory, or at the root, which is one. -/
  tree : ∀ e ∈ d.entries, (d.node? e.1.dropLast).any Node.isDirectory = true

instance (d : Disk) : Decidable d.WellFormed :=
  decidable_of_iff ((d.entries.map Prod.fst).Nodup ∧
      (∀ e ∈ d.entries, ∀ name ∈ e.1, IsEntryName name) ∧
      ∀ e ∈ d.entries, (d.node? e.1.dropLast).any Node.isDirectory = true)
    ⟨fun ⟨h, h', h''⟩ => ⟨h, h', h''⟩, fun ⟨h, h', h''⟩ => ⟨h, h', h''⟩⟩

theorem wellFormed_empty : empty.WellFormed := by decide

theorem any_isDirectory_iff {o : Option Node} :
    o.any Node.isDirectory = true ↔ ∃ m, o = some (.directory m) := by
  rcases o with _ | ⟨bytes, mode⟩ | mode <;> simp [Node.isDirectory]

theorem mem_entries_of_node? (hne : p ≠ []) (h : d.node? p = some n) : (p, n) ∈ d.entries := by
  have hlookup : d.entries.lookup p = some n := by
    cases p with
    | nil => contradiction
    | cons part rest => simpa [node?] using h
  obtain ⟨before, behind, heq, _⟩ := List.lookup_eq_some_iff.mp hlookup
  simp [heq]

namespace WellFormed

/-- What stands at a place has a name for each step from the root. -/
theorem isEntryName (hd : d.WellFormed) (h : d.node? p = some n) (hname : name ∈ p) :
    IsEntryName name :=
  hd.named _ (mem_entries_of_node? (List.ne_nil_of_mem hname) h) name hname

theorem node?_of_mem (hd : d.WellFormed) (h : (p, n) ∈ d.entries) : d.node? p = some n := by
  have hlookup : d.entries.lookup p = some n := by
    obtain ⟨before, behind, heq⟩ := List.append_of_mem h
    refine List.lookup_eq_some_iff.mpr ⟨before, behind, heq, fun e he => ?_⟩
    have hunique := hd.unique
    rw [heq, List.map_append, List.map_cons, List.nodup_append] at hunique
    simpa using fun hp : p = e.1 =>
      hunique.2.2 e.1 (List.mem_map_of_mem he) p (by simp) hp.symm
  cases p with
  | nil => simp [node?, hlookup]
  | cons part rest => simpa [node?] using hlookup

/-- Whatever stands below the root of the tree stands in a directory. -/
theorem exists_directory (hd : d.WellFormed) (h : d.node? (p ++ [name]) ≠ none) :
    ∃ m, d.node? p = some (.directory m) := by
  obtain ⟨n, hn⟩ := Option.ne_none_iff_exists'.mp h
  have habove := hd.tree _ (mem_entries_of_node? (by simp) hn)
  rwa [List.dropLast_concat, any_isDirectory_iff] at habove

theorem exists_root (hd : d.WellFormed) : ∃ m, d.node? [] = some (.directory m) := by
  cases hroot : d.entries.lookup [] with
  | none => exact ⟨0o755, by simp [node?, hroot]⟩
  | some n =>
    obtain ⟨before, behind, heq, _⟩ := List.lookup_eq_some_iff.mp hroot
    exact any_isDirectory_iff.mp (hd.tree ([], n) (by simp [heq]))

/-- Nothing stands below a place where nothing stands. -/
theorem child_eq_none (hd : d.WellFormed) (hnone : d.node? p = none) (name : LooseText) :
    d.node? (p ++ [name]) = none := by
  by_contra hchild
  obtain ⟨m, hm⟩ := hd.exists_directory hchild
  simp [hnone] at hm

end WellFormed

/-! What may change in a tree. -/

theorem map_fst_setEntry (p : Place) (n : Node) (es : List (Place × Node)) :
    (setEntry p n es).map Prod.fst =
      if p ∈ es.map Prod.fst then es.map Prod.fst else es.map Prod.fst ++ [p] := by
  induction es with
  | nil => simp [setEntry]
  | cons e es ih =>
    obtain ⟨r, k⟩ := e
    by_cases hr : r = p
    · simp [setEntry, hr]
    · rw [setEntry, if_neg hr, List.map_cons, ih]
      by_cases hmem : p ∈ es.map Prod.fst
      · simp only [hmem, if_true, List.map_cons, List.mem_cons, or_true]
      · simp only [hmem, if_false, List.map_cons, List.mem_cons, Ne.symm hr, or_self,
          List.cons_append]

theorem lookup_filter_of_ne (h : q ≠ p) (es : List (Place × Node)) :
    (es.filter fun e => e.1 != p).lookup q = es.lookup q := by
  induction es with
  | nil => rfl
  | cons e es ih =>
    obtain ⟨r, k⟩ := e
    by_cases hr : r = p
    · subst hr
      rw [List.filter_cons_of_neg (by simp), ih, lookup_cons_of_ne h]
    · rw [List.filter_cons_of_pos (by simpa using hr), List.lookup_cons, List.lookup_cons, ih]

theorem node?_erase_of_ne (h : q ≠ p) : (d.erase p).node? q = d.node? q :=
  node?_congr (lookup_filter_of_ne h d.entries)

theorem node?_erase_self (hne : p ≠ []) : (d.erase p).node? p = none := by
  have hlookup : (d.entries.filter fun e => e.1 != p).lookup p = none := by
    rw [List.lookup_eq_none_iff]
    intro e he
    have hkept : e.1 ≠ p := by simpa using (List.mem_filter.mp he).2
    exact bne_iff_ne.mpr hkept.symm
  cases p with
  | nil => contradiction
  | cons part rest => simpa [node?, erase] using hlookup

/-- No directory goes with a file. -/
theorem keepsDirectories_erase (hp : d.node? p = some (.file bytes mode)) :
    KeepsDirectories d (d.erase p) := by
  intro q k hq
  have hne : q ≠ p := by
    rintro rfl
    simp [hp] at hq
  rw [node?_erase_of_ne hne, hq]

theorem mem_setEntry {e : Place × Node} {es : List (Place × Node)} (h : e ∈ setEntry p n es) :
    e = (p, n) ∨ e ∈ es := by
  induction es with
  | nil => simpa [setEntry] using h
  | cons x es ih =>
    obtain ⟨r, k⟩ := x
    rw [setEntry] at h
    split at h
    · exact (List.mem_cons.mp h).imp_right (List.mem_cons_of_mem _)
    · rcases List.mem_cons.mp h with rfl | h
      · exact .inr List.mem_cons_self
      · exact (ih h).imp_right (List.mem_cons_of_mem _)

namespace WellFormed

/-- A tree stays one when something is put where entries can stand, unless that is a file in place of
a directory. -/
theorem set (hd : d.WellFormed) (hnames : ∀ name ∈ p, IsEntryName name)
    (habove : ∃ k, d.node? p.dropLast = some (.directory k))
    (hkeep : n.isDirectory = true ∨ ∀ k, d.node? p ≠ some (.directory k)) :
    (d.set p n).WellFormed := by
  -- a directory above something is still there
  have stays {q : Place} (hq : ∃ k, d.node? q = some (.directory k)) :
      ((d.set p n).node? q).any Node.isDirectory = true := by
    obtain ⟨k, hk⟩ := hq
    by_cases heq : q = p
    · subst heq
      rw [node?_set_self]
      exact hkeep.resolve_right fun hno => hno k hk
    · rw [node?_set_of_ne heq, hk]
      rfl
  refine ⟨?_, fun e he => ?_, fun e he => ?_⟩
  · change ((setEntry p n d.entries).map Prod.fst).Nodup
    rw [map_fst_setEntry]
    split
    · exact hd.unique
    · next hnew => exact List.nodup_append_comm.mp (List.nodup_cons.mpr ⟨hnew, hd.unique⟩)
  · rcases mem_setEntry he with rfl | he
    · exact hnames
    · exact hd.named e he
  · rcases mem_setEntry he with rfl | he
    · exact stays habove
    · exact stays (any_isDirectory_iff.mp (hd.tree e he))

/-- The same kind of thing may be put in place of another. -/
theorem set_same (hd : d.WellFormed) (hp : d.node? p = some m)
    (hkind : n.isDirectory = m.isDirectory) : (d.set p n).WellFormed := by
  refine hd.set (fun name hname => hd.isEntryName hp hname) ?_ ?_
  · rcases List.eq_nil_or_concat' p with rfl | ⟨front, last, rfl⟩
    · exact hd.exists_root
    · rw [List.dropLast_concat]
      exact hd.exists_directory (hp ▸ Option.some_ne_none m)
  · cases m with
    | file b k => exact .inr fun k' => by simp [hp]
    | directory k => exact .inl hkind

/-- A file may be taken away. -/
theorem erase (hd : d.WellFormed) (hp : d.node? p = some (.file bytes mode)) :
    (d.erase p).WellFormed := by
  have hsub : (d.erase p).entries.Sublist d.entries := List.filter_sublist
  refine ⟨hd.unique.sublist (hsub.map _), fun e he => hd.named e (hsub.subset he), fun e he => ?_⟩
  obtain ⟨k, hk⟩ := any_isDirectory_iff.mp (hd.tree e (hsub.subset he))
  rw [keepsDirectories_erase hp _ _ hk]
  rfl

/-- A tree stays one when something is put where a path leads. -/
theorem set_of_place (hd : d.WellFormed) (hp : d.place path = .ok p)
    (hnames : ∀ name ∈ path.target, IsEntryName name)
    (hkeep : n.isDirectory = true ∨ ∀ k, d.node? p ≠ some (.directory k)) :
    (d.set p n).WellFormed := by
  by_cases hne : p = []
  · obtain ⟨k, hk⟩ := hd.exists_root
    subst hne
    exact hd.set_same hk (hkeep.resolve_right fun hno => hno k hk)
  · rw [← place_eq hp] at hnames
    refine hd.set hnames ((isLedTo_nil d).of_follow (follow_of_place hp) _
      (List.dropLast_prefix p) fun heq => ?_) hkeep
    have hlength := congrArg List.length heq
    have hpos := List.length_pos_iff.mpr hne
    rw [List.length_dropLast] at hlength
    omega

/-- An entry with a proper name has a proper place: what stands above it is there. -/
theorem isEntryName_of_place (hd : d.WellFormed) (hname : IsEntryName name)
    (hp : d.place (path.child name) = .ok p) :
    ∀ part ∈ (path.child name).target, IsEntryName part := by
  have hled := (isLedTo_nil d).of_follow (follow_of_place hp)
  rw [place_eq hp, FilePath.target_child hname] at hled
  obtain ⟨m, hm⟩ := hled path.target (List.prefix_append _ _) (by simp)
  rw [FilePath.target_child hname, List.forall_mem_append]
  exact ⟨fun part hpart => hd.isEntryName hm hpart, List.forall_mem_singleton.mpr hname⟩

/-! The calls of the disk. -/

theorem add (hd : d.WellFormed) (hnames : ∀ name ∈ path.target, IsEntryName name)
    (h : d.add path n = .ok d') : d'.WellFormed := by
  obtain ⟨p, hp, hnone, _, rfl⟩ := of_add h
  exact hd.set_of_place hp hnames (.inr (by simp [hnone]))

theorem changeMode (hd : d.WellFormed) (h : d.changeMode path mode = .ok d') : d'.WellFormed := by
  cases hs : d.status path with
  | error e => simp [Disk.changeMode, hs] at h
  | ok s =>
    obtain ⟨hp, hn⟩ := status_eq_ok_iff.mp hs
    obtain rfl := of_changeMode hp hn h
    exact hd.set_same hn (by cases s.2 <;> rfl)

theorem unlink (hd : d.WellFormed) (h : d.unlink path = .ok d') : d'.WellFormed := by
  cases hs : d.status path with
  | error e => simp [Disk.unlink, hs] at h
  | ok s =>
    obtain ⟨p, n⟩ := s
    obtain ⟨hp, hn⟩ := status_eq_ok_iff.mp hs
    simp only [Disk.unlink, hs] at h
    split at h
    · cases h
    · cases n with
      | directory k => cases h
      | file b k =>
        obtain rfl := Except.ok.inj h
        exact hd.erase hn

/-- A file may be moved. -/
theorem rename (hd : d.WellFormed) (hs : d.status source = .ok (p, .file bytes mode))
    (hnames : ∀ name ∈ path.target, IsEntryName name) (h : d.rename source path = .ok d') :
    d'.WellFormed := by
  obtain ⟨hp, hn⟩ := status_eq_ok_iff.mp hs
  obtain ⟨q, hq, hdir, rfl⟩ := of_rename hp hn h
  have hkeep := keepsDirectories_erase hn
  refine (hd.erase hn).set_of_place (hkeep.place hq) hnames (.inr fun k hk => ?_)
  by_cases hqp : q = p
  · subst hqp
    have hne : q ≠ [] := by
      rintro rfl
      obtain ⟨m, hm⟩ := hd.exists_root
      simp [hn] at hm
    simp [node?_erase_self hne] at hk
  · rw [node?_erase_of_ne hqp] at hk
    exact hdir k hk

theorem replaceWithin (hd : d.WellFormed) (hnames : ∀ name ∈ path.target, IsEntryName name) :
    (d.replaceWithin room path bytes).2.WellFormed := by
  rcases hr : d.replaceWithin room path bytes with ⟨e | _, d'⟩
  · rw [of_replaceWithin_error hr]
    exact hd
  · obtain ⟨q, m, _, hq, hdir, rfl, _⟩ := of_replaceWithin hr
    exact hd.set_of_place hq hnames (.inr hdir)

end WellFormed

/-! Writing a file. -/

/-- The path leads to a file that may be written, or to where a file may be made. -/
def TakesFile (d : Disk) (path : FilePath) : Prop :=
  d.place path = .ok path.target ∧
    match d.node? path.target with
    | some (.file _ mode) => mode.testBit 7 = true
    | some (.directory _) => False
    | none => d.isOpenAbove path.target = true

/-- Whether a file is written does not depend on the bytes. It keeps its mode, and nothing else has
changed. -/
theorem write_eq_ok_iff : d.write path bytes = .ok d' ↔ d.TakesFile path ∧
    d' = d.set path.target
      (.file bytes ((d.node? path.target).elim d.umask.fileMode Node.mode)) := by
  unfold write TakesFile
  cases hp : d.place path with
  | error e => simp
  | ok p =>
    obtain rfl := place_eq hp
    rcases hn : d.node? path.target with _ | ⟨old, mode⟩ | mode
    · cases hopen : d.isOpenAbove path.target with
      | false => simp [hn, hopen]
      | true => simpa [hn, hopen] using eq_comm
    · cases hw : mode.testBit 7 with
      | false => simp [hn, Node.isWritable, Node.mode, hw]
      | true => simpa [hn, Node.isWritable, Node.mode, hw] using eq_comm
    · simp [hn]

theorem of_write (h : d.write path bytes = .ok d') : d' = d.set path.target
    (.file bytes ((d.node? path.target).elim d.umask.fileMode Node.mode)) :=
  (write_eq_ok_iff.mp h).2

theorem TakesFile.ne_directory (h : d.TakesFile path) (m : Nat) :
    d.node? path.target ≠ some (.directory m) := by
  intro hm
  have htakes := h.2
  rw [hm] at htakes
  exact htakes

theorem WellFormed.write (hd : d.WellFormed) (hnames : ∀ name ∈ path.target, IsEntryName name)
    (h : d.write path bytes = .ok d') : d'.WellFormed := by
  obtain ⟨htakes, rfl⟩ := write_eq_ok_iff.mp h
  exact hd.set_of_place htakes.1 hnames (.inr htakes.ne_directory)

theorem keepsDirectories_of_write (h : d.write path bytes = .ok d') : KeepsDirectories d d' := by
  obtain ⟨htakes, rfl⟩ := write_eq_ok_iff.mp h
  exact (agreesBut_set d _ _).keepsDirectories htakes.ne_directory

/-- A path leads to the file that has been written there. -/
theorem status_of_write (h : d.write path bytes = .ok d') : d'.status path = .ok (path.target,
    .file bytes ((d.node? path.target).elim d.umask.fileMode Node.mode)) := by
  obtain ⟨htakes, rfl⟩ := write_eq_ok_iff.mp h
  exact status_set_file htakes.1 htakes.ne_directory

/-- A file that has been written can be written once more, and keeps its bytes. -/
theorem write_again (h : d.write path bytes = .ok d') : d'.write path bytes = .ok d' := by
  obtain ⟨hp, hn⟩ := status_eq_ok_iff.mp (status_of_write h)
  have htakes := (write_eq_ok_iff.mp h).1.2
  have hwritable :
      ((d.node? path.target).elim d.umask.fileMode Node.mode).testBit 7 = true := by
    split at htakes
    · next old mode hold =>
      rw [hold]
      exact htakes
    · exact htakes.elim
    · next hnone =>
      rw [hnone]
      exact d.umask.testBit_fileMode (by decide) (by decide)
  rw [write_of_writable hp hn hwritable, set_file_self hn]

theorem write_of_missing (hp : d.place path = .ok p) (hnone : d.node? p = none)
    (hopen : d.isOpenAbove p = true) (bytes : ByteArray) :
    d.write path bytes = .ok (d.set p (.file bytes d.umask.fileMode)) := by
  simp [write, hp, hnone, hopen]

/-- A path into a directory that has just been made leads to a place where nothing stands. -/
theorem place_child_set (hp : d.place path = .ok p) (hnone : d.node? p = none)
    (hmode : mode.testBit 6 = true) (hlong : isOverlong (path.child name).toText = false)
    (hname : isTooLong name = false) (hback : name ≠ FilePath.back) :
    (d.set p (.directory mode)).place (path.child name) = .ok (p ++ [FileName.known name]) := by
  have hfollow := (keepsDirectories_set hnone (.directory mode)).follow (follow_of_place hp)
  have hparts : (path.child name).parts = path.parts ++ [name] := rfl
  rw [place, hlong, hparts, follow_append, hfollow]
  simp [follow, Node.isDirectory, Node.isSearchable, Node.mode, hmode, hname, hback]

end AsmListing.Disk
