import AsmListing.Proofs.Disk
import AsmListing.Proofs.PathText

/-! A file can be replaced wherever a temporary file can be made beside it: what follows the making
of that file cannot be refused. -/
namespace AsmListing

theorem Text.mem_toDigits {c : Char} {n : Nat} (h : c ∈ Nat.toDigits 16 n) :
    ∃ d < 16, c = Nat.digitChar d := by
  induction n using Nat.strongRecOn with
  | ind n ih =>
    by_cases hn : n < 16
    · rw [Nat.toDigits_of_lt_base hn] at h
      exact ⟨n, hn, List.mem_singleton.mp h⟩
    · rw [Nat.toDigits_of_base_le (by omega) (by omega)] at h
      rcases List.mem_append.mp h with h | h
      · exact ih (n / 16) (by omega) h
      · exact ⟨n % 16, Nat.mod_lt n (by omega), List.mem_singleton.mp h⟩

namespace FilePath

variable {p : FilePath} {parts front done : List LooseText} {part last : LooseText}

theorem foldl_stepLexically (h : back ∉ parts) :
    parts.foldl stepLexically done = done ++ parts := by
  induction parts generalizing done with
  | nil => simp
  | cons part rest ih =>
    obtain ⟨hpart, hrest⟩ := List.ne_and_not_mem_of_not_mem_cons h
    rw [List.foldl_cons, stepLexically, if_neg (Ne.symm hpart), ih hrest, List.append_assoc,
      List.singleton_append]

/-- No double dots are left. -/
theorem not_mem_foldl_stepLexically (h : back ∉ done) :
    back ∉ parts.foldl stepLexically done := by
  induction parts generalizing done with
  | nil => exact h
  | cons part rest ih =>
    apply ih
    unfold stepLexically
    split
    · exact fun hmem => h ((List.dropLast_prefix done).subset hmem)
    · next hpart => simp [h, Ne.symm hpart]

theorem mem_of_mem_foldl_stepLexically (h : part ∈ parts.foldl stepLexically done) :
    part ∈ done ∨ part ∈ parts := by
  induction parts generalizing done with
  | nil => exact .inl h
  | cons first rest ih =>
    rcases ih h with hdone | hrest
    · unfold stepLexically at hdone
      split at hdone
      · exact .inl ((List.dropLast_prefix done).subset hdone)
      · rcases List.mem_append.mp hdone with hdone | hfirst
        · exact .inl hdone
        · exact .inr (List.mem_cons.mpr (.inl (List.mem_singleton.mp hfirst)))
    · exact .inr (List.mem_cons_of_mem _ hrest)

theorem mem_of_mem_normalParts (h : part ∈ normalParts parts) : part ∈ parts :=
  (mem_of_mem_foldl_stepLexically h).resolve_left List.not_mem_nil

theorem not_mem_normalParts (parts : List LooseText) : back ∉ normalParts parts :=
  not_mem_foldl_stepLexically List.not_mem_nil

/-- A part that does not lead back is the last one of the normal form. -/
theorem normalParts_append_singleton (h : part ≠ back) :
    normalParts (parts ++ [part]) = normalParts parts ++ [part] := by
  simp [normalParts, List.foldl_append, stepLexically, h]

@[simp] theorem normalParts_normalParts (parts : List LooseText) :
    normalParts (normalParts parts) = normalParts parts := by
  have hnormal : normalParts (normalParts parts) = [] ++ normalParts parts :=
    foldl_stepLexically (not_mem_normalParts parts)
  exact hnormal

/-- A step along a path, from one place to the next. -/
def stepDown (p : Place) (part : LooseText) : Place :=
  if part = back then p.dropLast else p ++ [FileName.known part]

theorem map_stepLexically (done : List LooseText) (part : LooseText) :
    (stepLexically done part).map FileName.known = stepDown (done.map FileName.known) part := by
  unfold stepLexically stepDown
  split <;> simp

/-- A path names the place that its steps lead to. -/
theorem target_eq_foldl (p : FilePath) : p.target = p.parts.foldl stepDown [] := by
  have hmap (done : List LooseText) : (p.parts.foldl stepLexically done).map FileName.known =
      p.parts.foldl stepDown (done.map FileName.known) := by
    induction p.parts generalizing done with
    | nil => rfl
    | cons part rest ih => rw [List.foldl_cons, ih, map_stepLexically, List.foldl_cons]
  exact hmap []

/-- Names lead one place down each. -/
theorem target_append {anchor : Anchor} {names : List LooseText}
    (hnames : ∀ name ∈ names, IsEntryName name) :
    (⟨anchor, parts ++ names⟩ : FilePath).target = (⟨anchor, parts⟩ : FilePath).target ++ names := by
  rw [target_eq_foldl, target_eq_foldl, List.foldl_append]
  generalize (⟨anchor, parts⟩ : FilePath).parts.foldl stepDown [] = p
  induction names generalizing p with
  | nil => simp
  | cons name names ih =>
    obtain ⟨hname, hrest⟩ := List.forall_mem_cons.mp hnames
    rw [List.foldl_cons, ih hrest, stepDown, if_neg hname.ne_back, hname.known_eq,
      List.append_assoc, List.singleton_append]

theorem target_child {name : LooseText} (h : IsEntryName name) (path : FilePath) :
    (path.child name).target = path.target ++ [name] :=
  target_append (List.forall_mem_singleton.mpr h)

/-- The last part names an entry of the directory that the others name. -/
theorem target_of_parts (hparts : p.parts = front ++ [last]) (h : last ≠ back) :
    p.target = (normalParts front).map FileName.known ++ [FileName.known last] := by
  rw [target, hparts, normalParts_append_singleton h, List.map_append, List.map_singleton]

end FilePath

namespace Disk

variable {d d' : Disk} {p q : Place} {path temporary : FilePath}
  {parts more front : List LooseText} {part last name : LooseText} {n : Node} {mode : Nat}
  {old bytes : ByteArray}

/-- All places above this one hold directories. -/
def IsLedTo (d : Disk) (p : Place) : Prop :=
  ∀ q, q <+: p → q ≠ p → ∃ m, d.node? q = some (.directory m)

/-- A step of a path goes from a directory, one place up or one place down. -/
theorem of_follow_cons (h : d.follow p (part :: parts) = .ok q) :
    (∃ m, d.node? p = some (.directory m)) ∧
      d.follow (FilePath.stepDown p part) parts = .ok q := by
  rw [follow] at h
  cases hn : d.node? p with
  | none => simp [hn] at h
  | some n =>
    cases n with
    | file b m => simp [hn, Node.isDirectory] at h
    | directory m =>
      refine ⟨⟨m, rfl⟩, ?_⟩
      simp only [hn, Node.isDirectory, Bool.not_true, Bool.false_eq_true, if_false] at h
      split at h
      · cases h
      · unfold FilePath.stepDown
        split at h
        · next hdots => rwa [if_pos hdots]
        · next hdots =>
          split at h
          · cases h
          · rwa [if_neg hdots]

/-- Where a path leads can be told from its parts alone. -/
theorem eq_foldl_of_follow (h : d.follow p parts = .ok q) :
    q = parts.foldl FilePath.stepDown p := by
  induction parts generalizing p with
  | nil => exact (Except.ok.inj h).symm
  | cons part rest ih => exact ih (of_follow_cons h).2

theorem IsLedTo.stepDown (h : d.IsLedTo p) (hp : ∃ m, d.node? p = some (.directory m)) :
    d.IsLedTo (FilePath.stepDown p part) := by
  intro r hr hne
  unfold FilePath.stepDown at hr hne
  split at hr
  · next hdots =>
    rw [if_pos hdots] at hne
    refine h r (hr.trans (List.dropLast_prefix p)) ?_
    rintro rfl
    exact hne (hr.eq_of_length_le (by simp))
  · next hdots =>
    rw [if_neg hdots] at hne
    rcases List.prefix_concat_iff.mp hr with heq | hpre
    · exact absurd heq hne
    · by_cases hrp : r = p
      · rwa [hrp]
      · exact h r hpre hrp

/-- Whatever stands above the end of a path has been gone through. -/
theorem IsLedTo.of_follow (h : d.IsLedTo p) (hf : d.follow p parts = .ok q) : d.IsLedTo q := by
  induction parts generalizing p with
  | nil =>
    obtain rfl := Except.ok.inj hf
    exact h
  | cons part rest ih =>
    obtain ⟨hdir, hrest⟩ := of_follow_cons hf
    exact ih (h.stepDown hdir) hrest

theorem isLedTo_nil (d : Disk) : d.IsLedTo [] := by
  intro q hq hne
  exact absurd (List.prefix_nil.mp hq) hne

theorem follow_append : d.follow p (parts ++ more) =
    match d.follow p parts with
    | .error e => .error e
    | .ok q => d.follow q more := by
  induction parts generalizing p with
  | nil => rfl
  | cons part rest ih =>
    simp only [List.cons_append, follow]
    cases d.node? p with
    | none => rfl
    | some n => grind

theorem follow_of_place (h : d.place path = .ok p) : d.follow [] path.parts = .ok p := by
  unfold place at h
  split at h
  · cases h
  · exact h

/-- A path leads nowhere but to the place that it names. -/
theorem place_eq (h : d.place path = .ok p) : p = path.target := by
  rw [FilePath.target_eq_foldl]
  exact eq_foldl_of_follow (follow_of_place h)

/-- The root is a directory where anything can be made. -/
theorem exists_root_of_place (hparts : path.parts = front ++ [last]) (h : d.place path = .ok p) :
    ∃ m, d.node? [] = some (.directory m) := by
  have hfollow := follow_of_place h
  rw [hparts] at hfollow
  cases front with
  | nil => exact (of_follow_cons hfollow).1
  | cons => exact (of_follow_cons hfollow).1

/-- The last part of a path to a file does not lead back. -/
theorem exists_parts_of_status (hroot : ∃ m, d.node? [] = some (.directory m))
    (h : d.status path = .ok (p, .file old mode)) :
    ∃ front last, path.parts = front ++ [last] ∧ last ≠ FilePath.back := by
  obtain ⟨hplace, hnode⟩ := status_eq_ok_iff.mp h
  have hfile (hdir : ∃ m, d.node? p = some (.directory m)) : False := by
    obtain ⟨m, hm⟩ := hdir
    simp [hnode] at hm
  have hfollow := follow_of_place hplace
  rcases List.eq_nil_or_concat path.parts with hnil | ⟨front, last, hparts⟩
  · rw [hnil] at hfollow
    obtain rfl := Except.ok.inj hfollow
    exact (hfile hroot).elim
  · rw [List.concat_eq_append] at hparts
    rw [hparts, follow_append] at hfollow
    split at hfollow
    · cases hfollow
    · next q hq =>
      obtain ⟨hdir, hlast⟩ := of_follow_cons hfollow
      obtain rfl := Except.ok.inj hlast
      refine ⟨front, last, hparts, ?_⟩
      rintro rfl
      -- the place above a directory that was gone through holds a directory
      refine hfile ?_
      by_cases hnil : q.dropLast = q
      · simpa [FilePath.stepDown, hnil] using hdir
      · exact (isLedTo_nil d).of_follow hq _ (List.dropLast_prefix q) hnil

theorem exists_name_of_createFresh {directory : FilePath} {i left : Nat}
    (h : d.createFresh directory name i left = .ok (temporary, d')) :
    ∃ j, temporary = directory.child (temporaryName name j) := by
  induction left generalizing i with
  | zero => simp [createFresh] at h
  | succ left ih =>
    rw [createFresh] at h
    split at h
    · cases h
    · split at h
      · obtain ⟨rfl, _⟩ := Prod.mk.inj (Except.ok.inj h)
        exact ⟨i, rfl⟩
      · split at h
        · exact ih h
        · cases h

theorem temporaryName_ne (name : LooseText) (i : Nat) : temporaryName name i ≠ FilePath.back := by
  intro h
  have hlength := congrArg List.length h
  have hend : (".tmp" : Text).length = 4 := rfl
  have hback : FilePath.back.length = 2 := rfl
  simp only [temporaryName, List.length_append, List.length_cons, Text.length_loose] at hlength
  omega

/-- A temporary file stands beside the file that it is for. -/
theorem dropLast_of_createTemporary (hs : d.status path = .ok (p, .file old mode))
    (h : d.createTemporary path = .ok (temporary, d')) (hq : d.place temporary = .ok q) :
    path.name ≠ FilePath.back ∧ q.dropLast = p.dropLast := by
  obtain ⟨j, rfl⟩ := exists_name_of_createFresh h
  have hroot := exists_root_of_place rfl hq
  obtain ⟨front, last, hparts, hback⟩ := exists_parts_of_status hroot hs
  have hp := place_eq (status_eq_ok_iff.mp hs).1
  rw [FilePath.target_of_parts hparts hback] at hp
  have hq := place_eq hq
  rw [FilePath.target_of_parts rfl (temporaryName_ne path.name j), temporaryDirectory,
    FilePath.normalParts_normalParts, FilePath.parent, hparts, List.dropLast_concat] at hq
  refine ⟨by simp [FilePath.name, hparts, hback], ?_⟩
  rw [hp, hq, List.dropLast_concat, List.dropLast_concat]

/-! What a call does that is not refused. -/

theorem write_of_writable (hp : d.place path = .ok p) (hn : d.node? p = some (.file old mode))
    (hw : mode.testBit 7 = true) (bytes : ByteArray) :
    d.write path bytes = .ok (d.set p (.file bytes mode)) := by
  simp [write, hp, hn, Node.isWritable, Node.mode, hw]

theorem changeMode_eq (hp : d.place path = .ok p) (hn : d.node? p = some n) (mode : Nat) :
    d.changeMode path mode = .ok (d.set p (n.withMode mode)) := by
  simp [changeMode, status_eq_ok_iff.mpr ⟨hp, hn⟩]

theorem rename_eq (hq : d.place temporary = .ok q) (hn : d.node? q = some n)
    (hp : d.place path = .ok p) (hback : path.name ≠ FilePath.back) (hopen : d.isOpenAbove q = true)
    (hopen' : d.isOpenAbove p = true) (hdir : ∀ m, d.node? p ≠ some (.directory m)) :
    d.rename temporary path = .ok ((d.erase q).set p n) := by
  simp only [rename, status_eq_ok_iff.mpr ⟨hq, hn⟩, hp, if_neg hback, hopen, hopen',
    Bool.not_true, Bool.or_self, Bool.false_eq_true, if_false]

theorem isOpenAbove_set_of_ne (h : p.dropLast ≠ q) :
    (d.set q n).isOpenAbove p = d.isOpenAbove p := by
  rw [isOpenAbove, isOpenAbove, node?_set_of_ne h]

theorem fill_eq (hp : d.place temporary = .ok p) (hn : d.node? p = some (.file old mode))
    (bytes : ByteArray) : d.fill none temporary bytes = (.ok (), d.set p (.file bytes mode)) := by
  simp [fill, status_eq_ok_iff.mpr ⟨hp, hn⟩, Node.mode]

/-- The temporary file can be filled, given the mode of the file at `path` and moved there. -/
theorem install_eq (hname : path.flaw? = none) (hq : d.place temporary = .ok q)
    (hnone : d.node? q = none) (hopen : d.isOpenAbove q = true)
    (hs : d.status path = .ok (p, .file old mode)) (hback : path.name ≠ FilePath.back)
    (habove : q.dropLast = p.dropLast) (bytes : ByteArray) :
    (d.set q (.file ByteArray.empty 0o600)).install none temporary path bytes =
      (.ok (), d.set p (.file bytes mode)) := by
  obtain ⟨hp, hn⟩ := status_eq_ok_iff.mp hs
  have hne : p ≠ q := by
    rintro rfl
    simp [hn] at hnone
  have hqabove := dropLast_ne hnone
  have hpabove : p.dropLast ≠ q := habove ▸ hqabove
  have hq' (n : Node) := (keepsDirectories_set hnone n).place hq
  have hp' (n : Node) := (keepsDirectories_set hnone n).place hp
  have hn' (n : Node) : (d.set q n).node? p = some (.file old mode) :=
    (node?_set_of_ne hne).trans hn
  have hfill := fill_eq (hq' (.file ByteArray.empty 0o600)) (node?_set_self ..) bytes
  rw [set_set] at hfill
  have hprobe := probe_of_place hname (hp' (.file bytes 0o600))
  rw [hn'] at hprobe
  have hmode := changeMode_eq (hq' (.file bytes 0o600)) (node?_set_self ..) mode
  rw [set_set] at hmode
  have hmove := rename_eq (hq' (.file bytes mode)) (node?_set_self ..) (hp' _) hback
    (by rw [isOpenAbove_set_of_ne hqabove, hopen])
    (by rw [isOpenAbove_set_of_ne hpabove, isOpenAbove, ← habove]; exact hopen)
    (by simp [hn'])
  rw [erase_set hnone] at hmove
  have hsettle := settle_eq_ok_iff.mpr ⟨hname, hmove⟩
  simp only [install, hfill, takeMode, hprobe, Node.mode, hmode, Node.withMode, hsettle]

/-- Once its temporary file is there, nothing stands in the way of replacing a file. -/
theorem replace_of_createTemporary (hname : path.flaw? = none)
    (hs : d.status path = .ok (p, .file old mode))
    (h : d.createTemporary path = .ok (temporary, d')) (bytes : ByteArray) :
    d.replaceWithin none path bytes = (.ok (), d.set p (.file bytes mode)) := by
  obtain ⟨q, hq, hnone, hopen, rfl⟩ := of_createTemporary h
  obtain ⟨hback, habove⟩ := dropLast_of_createTemporary hs h hq
  simp only [replaceWithin, h, install_eq hname hq hnone hopen hs hback habove]

/-! A path without a flaw meets none: what is added for a temporary file is harmless. -/

theorem pathFlaw?_temporaryName (h : name.pathFlaw? = none) (i : Nat) :
    (temporaryName name i).pathFlaw? = none := by
  have hdigit : ∀ d < 16, Nat.digitChar d ≠ Char.ofNat 0 := by decide
  have hletters : Char.ofNat 0 ∉ ('.' :: freshLetters i ++ ".tmp" : Text) := by
    have hzeros (n : Nat) : Char.ofNat 0 ∉ List.replicate n '0' := by simp [List.mem_replicate]
    have hdigits (n : Nat) : Char.ofNat 0 ∉ Nat.toDigits 16 n := by
      intro hmem
      obtain ⟨d, hd, hc⟩ := Text.mem_toDigits hmem
      exact hdigit d hd hc.symm
    simp [freshLetters, Text.ofHex, hzeros, hdigits]
  rw [LooseText.pathFlaw?_eq_none_iff] at h ⊢
  intro p hp hbarred
  rw [temporaryName, List.cons_append, List.mem_cons, List.mem_append] at hp
  rcases hp with rfl | hp | hp
  · exact hbarred.ne_char (c := '.') (by decide) rfl
  · exact h p hp hbarred
  · obtain ⟨c, hc, rfl⟩ := List.mem_map.mp hp
    exact hbarred.ne_char (fun heq => hletters (heq ▸ hc)) rfl

theorem flaw?_of_createFresh {directory : FilePath} {flaw : PathFlaw} {i left : Nat}
    (h : d.createFresh directory name i left = .error (.flawed flaw)) :
    ∃ j, (directory.child (temporaryName name j)).flaw? = some flaw := by
  induction left generalizing i with
  | zero => cases h
  | succ left ih =>
    rw [createFresh] at h
    split at h
    · next flaw' hflaw =>
      obtain rfl : flaw' = flaw := by simpa using h
      exact ⟨i, hflaw⟩
    · split at h
      · cases h
      · split at h
        · exact ih h
        · cases h

theorem flaw?_temporaryDirectory (h : path.flaw? = none) :
    (temporaryDirectory path).flaw? = none ∧ path.name.pathFlaw? = none := by
  rw [FilePath.flaw?_eq_none_iff] at h
  constructor
  · refine FilePath.flaw?_eq_none_iff.mpr fun part hpart => h part ?_
    exact (List.dropLast_prefix path.parts).subset (FilePath.mem_of_mem_normalParts hpart)
  · unfold FilePath.name
    cases hlast : path.parts.getLast? with
    | none => decide
    | some part => exact h part (List.mem_of_getLast? hlast)

theorem flaw?_of_settle {flaw : PathFlaw} (h : d.settle temporary path = .error (.flawed flaw)) :
    path.flaw? = some flaw := by
  unfold settle at h
  split at h
  · next flaw' hflaw =>
    obtain rfl : flaw' = flaw := by simpa using h
    exact hflaw
  · cases hr : d.rename temporary path <;> rw [hr] at h <;> cases h

theorem flaw?_of_install {room : Option Nat} {flaw : PathFlaw}
    (h : d.install room temporary path bytes = (.error (.flawed flaw), d')) :
    path.flaw? = some flaw := by
  unfold install at h
  split at h
  · cases h
  · split at h
    · cases h
    · split at h
      · next e hsettle =>
        obtain rfl : e = .flawed flaw := Except.error.inj (Prod.mk.inj h).1
        exact flaw?_of_settle hsettle
      · cases h

/-- A flaw that a replacement meets is one of its path. -/
theorem flaw?_ne_none_of_replaceWithin {room : Option Nat} {flaw : PathFlaw}
    (h : d.replaceWithin room path bytes = (.error (.flawed flaw), d')) : path.flaw? ≠ none := by
  intro hnone
  unfold replaceWithin at h
  split at h
  · next e hcreate =>
    obtain rfl : e = .flawed flaw := Except.error.inj (Prod.mk.inj h).1
    obtain ⟨hdirectory, hname⟩ := flaw?_temporaryDirectory hnone
    obtain ⟨j, hflaw⟩ := flaw?_of_createFresh hcreate
    rw [FilePath.flaw?_child hdirectory (pathFlaw?_temporaryName hname j)] at hflaw
    cases hflaw
  · split at h
    · cases h
    · next e failed hinstall =>
      obtain rfl : e = .flawed flaw := Except.error.inj (Prod.mk.inj h).1
      rw [flaw?_of_install hinstall] at hnone
      cases hnone

end Disk

end AsmListing
