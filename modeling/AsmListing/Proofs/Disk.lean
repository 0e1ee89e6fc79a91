import AsmListing.Disk.Replacement

/-! What the calls of the disk change, and that replacing a file puts its new bytes in place. -/
namespace AsmListing

theorem mapError_eq_ok_iff {ε ε' α : Type} {f : ε → ε'} {x : Except ε α} {a : α} :
    x.mapError f = .ok a ↔ x = .ok a := by
  cases x with
  | error e => exact ⟨nofun, nofun⟩
  | ok b =>
    change (Except.ok b : Except ε' α) = .ok a ↔ _
    rw [Except.ok.injEq, Except.ok.injEq]

namespace Umask

variable (u : Umask)

theorem testBit_all : ∀ i < 9, (0o777 : Nat).testBit i = true := by decide

/-- What is denied to others, the owner keeps. -/
theorem testBit_restrict {i : Nat} (hi : 6 ≤ i) (hi' : i < 9) (mode : Nat) :
    (u.restrict mode).testBit i = mode.testBit i := by
  have hdenied : (u.denied : Nat).testBit i = false :=
    Nat.testBit_lt_two_pow (Nat.lt_of_lt_of_le u.denied.isLt (Nat.pow_le_pow_right Nat.two_pos hi))
  rw [restrict, Nat.testBit_and, Nat.testBit_xor, testBit_all i hi', hdenied]
  simp

/-- The owner of a new directory may do anything in it. -/
theorem testBit_directoryMode {i : Nat} (hi : 6 ≤ i) (hi' : i < 9) :
    u.directoryMode.testBit i = true :=
  (u.testBit_restrict hi hi' 0o777).trans (testBit_all i hi')

/-- The owner of a new file may read and write it. -/
theorem testBit_fileMode {i : Nat} (hi : 7 ≤ i) (hi' : i < 9) : u.fileMode.testBit i = true := by
  have hall : ∀ i < 9, 7 ≤ i → (0o666 : Nat).testBit i = true := by decide
  exact (u.testBit_restrict (Nat.le_trans (by decide) hi) hi' 0o666).trans (hall i hi' hi)

theorem restrict_ownerMode : u.restrict 0o600 = 0o600 := by
  have hall : ∀ m : Fin 0o100, 0o600 &&& (0o777 ^^^ m.val) = 0o600 := by decide
  exact hall u.denied

end Umask

namespace Disk

variable {d d' : Disk} {p q : Place} {n : Node} {path temporary : FilePath} {mode : Nat}
  {bytes : ByteArray} {room : Option Nat}

/-- The bytes of the file that a path leads to, whoever may read them. -/
def bytes? (d : Disk) (path : FilePath) : Option ByteArray :=
  match d.status path with
  | .ok (_, .file bytes _) => some bytes
  | _ => none

/-- Every directory of the first disk is there on the second one, with its mode. -/
def KeepsDirectories (d d' : Disk) : Prop :=
  ∀ p m, d.node? p = some (.directory m) → d'.node? p = some (.directory m)

/-- The disks have the same nodes but for one place. -/
def AgreesBut (p : Place) (d d' : Disk) : Prop := ∀ q, q ≠ p → d'.node? q = d.node? q

theorem lookup_cons_of_ne {r : Place} {m : Node} (h : p ≠ r) (es : List (Place × Node)) :
    ((r, m) :: es).lookup p = es.lookup p := by
  rw [List.lookup_cons, beq_eq_false_iff_ne.mpr h]

theorem lookup_setEntry_self (p : Place) (n : Node) (es : List (Place × Node)) :
    (setEntry p n es).lookup p = some n := by
  induction es with
  | nil => simp [setEntry]
  | cons e es ih =>
    obtain ⟨r, m⟩ := e
    by_cases hr : r = p
    · simp [setEntry, hr]
    · rw [setEntry, if_neg hr, lookup_cons_of_ne (Ne.symm hr), ih]

theorem lookup_setEntry_of_ne (h : q ≠ p) (es : List (Place × Node)) :
    (setEntry p n es).lookup q = es.lookup q := by
  induction es with
  | nil => exact lookup_cons_of_ne h []
  | cons e es ih =>
    obtain ⟨r, m⟩ := e
    by_cases hr : r = p
    · subst hr
      rw [setEntry, if_pos rfl, lookup_cons_of_ne h, lookup_cons_of_ne h]
    · rw [setEntry, if_neg hr, List.lookup_cons, List.lookup_cons, ih]

theorem setEntry_setEntry (p : Place) (n m : Node) (es : List (Place × Node)) :
    setEntry p m (setEntry p n es) = setEntry p m es := by
  induction es with
  | nil => simp [setEntry]
  | cons e es ih =>
    obtain ⟨r, k⟩ := e
    by_cases hr : r = p <;> simp [setEntry, hr, ih]

theorem filter_setEntry_of_lookup {es : List (Place × Node)} (h : es.lookup p = none) (n : Node) :
    (setEntry p n es).filter (fun e => e.1 != p) = es := by
  induction es with
  | nil => simp [setEntry]
  | cons e es ih =>
    obtain ⟨r, k⟩ := e
    by_cases hr : r = p
    · simp [hr] at h
    · rw [lookup_cons_of_ne (Ne.symm hr)] at h
      rw [setEntry, if_neg hr, List.filter_cons_of_pos (by simpa using hr), ih h]

theorem node?_congr (h : d'.entries.lookup p = d.entries.lookup p) : d'.node? p = d.node? p := by
  simp only [node?, h]

@[simp] theorem node?_set_self (d : Disk) (p : Place) (n : Node) :
    (d.set p n).node? p = some n := by
  cases p <;> simp [node?, set, lookup_setEntry_self]

theorem node?_set_of_ne (h : q ≠ p) : (d.set p n).node? q = d.node? q :=
  node?_congr (lookup_setEntry_of_ne h d.entries)

theorem node?_nil_ne_none (d : Disk) : d.node? [] ≠ none := by
  cases h : d.entries.lookup [] <;> simp [node?, h]

@[simp] theorem set_set (d : Disk) (p : Place) (n m : Node) : (d.set p n).set p m = d.set p m := by
  simp [set, setEntry_setEntry]

theorem setEntry_of_lookup {es : List (Place × Node)} (h : es.lookup p = some n) :
    setEntry p n es = es := by
  induction es with
  | nil => simp at h
  | cons e es ih =>
    obtain ⟨r, m⟩ := e
    by_cases hr : r = p
    · obtain rfl : m = n := by simpa [hr] using h
      simp [setEntry, hr]
    · rw [lookup_cons_of_ne (Ne.symm hr)] at h
      rw [setEntry, if_neg hr, ih h]

/-- A file is put over itself without a change. -/
theorem set_file_self (h : d.node? p = some (.file bytes mode)) :
    d.set p (.file bytes mode) = d := by
  have hlookup : d.entries.lookup p = some (.file bytes mode) := by
    cases hl : d.entries.lookup p <;> rcases p with _ | ⟨a, p⟩ <;> simp_all [node?]
  rw [set, setEntry_of_lookup hlookup]

/-- What is put where nothing stood can be taken away again. -/
theorem erase_set (h : d.node? p = none) (n : Node) : (d.set p n).erase p = d := by
  have hlookup : d.entries.lookup p = none := by
    rcases p with _ | ⟨a, p⟩
    · exact (node?_nil_ne_none d h).elim
    · simpa [node?] using h
  simp [set, erase, filter_setEntry_of_lookup hlookup]

theorem agreesBut_set (d : Disk) (p : Place) (n : Node) : AgreesBut p d (d.set p n) :=
  fun _ hq => node?_set_of_ne hq

/-- A change at a place without a directory keeps all directories. -/
theorem AgreesBut.keepsDirectories (h : AgreesBut p d d')
    (hp : ∀ m, d.node? p ≠ some (.directory m)) : KeepsDirectories d d' := by
  intro q m hq
  have hne : q ≠ p := by
    rintro rfl
    exact hp m hq
  rw [h q hne, hq]

/-- Paths lead to the same places as long as no directory goes. -/
theorem KeepsDirectories.follow (h : KeepsDirectories d d') {parts : List LooseText}
    (hf : d.follow p parts = .ok q) : d'.follow p parts = .ok q := by
  induction parts generalizing p with
  | nil => exact hf
  | cons part rest ih =>
    rw [Disk.follow] at hf ⊢
    cases hn : d.node? p with
    | none => simp [hn] at hf
    | some n =>
      cases n with
      | file b m => simp [hn, Node.isDirectory] at hf
      | directory m =>
        simp only [hn, h p m hn, Node.isDirectory, Bool.not_true, Bool.false_eq_true,
          if_false] at hf ⊢
        by_cases hs : (!(Node.directory m).isSearchable) = true
        · simp [hs] at hf
        · rw [if_neg hs] at hf ⊢
          by_cases hdots : part = FilePath.back
          · rw [if_pos hdots] at hf ⊢
            exact ih hf
          · rw [if_neg hdots] at hf ⊢
            by_cases hlong : isTooLong part = true
            · simp [hlong] at hf
            · rw [if_neg hlong] at hf ⊢
              exact ih hf

theorem KeepsDirectories.place (h : KeepsDirectories d d') (hf : d.place path = .ok q) :
    d'.place path = .ok q := by
  unfold Disk.place at hf ⊢
  split at hf
  · cases hf
  · next hlong => rw [if_neg hlong, h.follow hf]

/-! What each call has done when it succeeds. -/

theorem status_eq_ok_iff :
    d.status path = .ok (p, n) ↔ d.place path = .ok p ∧ d.node? p = some n := by
  unfold status
  cases hp : d.place path with
  | error e => simp
  | ok q =>
    cases hn : d.node? q with
    | none =>
      simp only [hn, reduceCtorEq, Except.ok.injEq, false_iff, not_and]
      rintro rfl
      simp [hn]
    | some m =>
      simp only [hn, Except.ok.injEq, Prod.mk.injEq]
      constructor
      · rintro ⟨rfl, rfl⟩
        exact ⟨rfl, hn⟩
      · rintro ⟨rfl, hm⟩
        simpa [hn] using hm

theorem eq_of_status (hs : d.status path = .ok (p, n)) (hq : d.place path = .ok q) :
    q = p ∧ d.node? q = some n := by
  obtain ⟨hp, hn⟩ := status_eq_ok_iff.mp hs
  obtain rfl : p = q := by simpa [hp] using hq
  exact ⟨rfl, hn⟩

theorem of_read (h : d.read path = .ok bytes) :
    ∃ p mode, d.status path = .ok (p, .file bytes mode) := by
  unfold read at h
  cases hs : d.status path with
  | error e => simp [hs] at h
  | ok s =>
    obtain ⟨p, n⟩ := s
    simp only [hs] at h
    split at h
    · cases h
    · cases n with
      | directory mode => cases h
      | file found mode =>
        obtain rfl := Except.ok.inj h
        exact ⟨p, mode, rfl⟩

theorem read_file (hs : d.status path = .ok (p, .file bytes mode)) : d.read path =
    if mode.testBit 8 then .ok bytes else .error ⟨.denied, [path.toText]⟩ := by
  cases hm : mode.testBit 8 <;> simp [read, hs, Node.isReadable, Node.mode, hm]

theorem of_add (h : d.add path n = .ok d') :
    ∃ p, d.place path = .ok p ∧ d.node? p = none ∧ d.isOpenAbove p = true ∧ d' = d.set p n := by
  unfold add at h
  cases hp : d.place path with
  | error e => simp [hp] at h
  | ok p =>
    cases hn : d.node? p with
    | some m => simp [hp, hn] at h
    | none =>
      simp only [hp, hn] at h
      split at h
      · next hopen => exact ⟨p, rfl, hn, hopen, (Except.ok.inj h).symm⟩
      · cases h

theorem of_write_file {old : ByteArray} (hp : d.place path = .ok p)
    (hn : d.node? p = some (.file old mode)) (h : d.write path bytes = .ok d') :
    d' = d.set p (.file bytes mode) := by
  simp only [write, hp, hn] at h
  split at h
  · exact (Except.ok.inj h).symm
  · cases h

theorem of_changeMode (hp : d.place path = .ok p) (hn : d.node? p = some n)
    (h : d.changeMode path mode = .ok d') : d' = d.set p (n.withMode mode) := by
  simp only [changeMode, status_eq_ok_iff.mpr ⟨hp, hn⟩] at h
  exact (Except.ok.inj h).symm

theorem of_rename {source target : FilePath} (hp : d.place source = .ok p)
    (hn : d.node? p = some n) (h : d.rename source target = .ok d') :
    ∃ q, d.place target = .ok q ∧ (∀ m, d.node? q ≠ some (.directory m)) ∧
      d' = (d.erase p).set q n := by
  simp only [rename, status_eq_ok_iff.mpr ⟨hp, hn⟩] at h
  cases hq : d.place target with
  | error e => simp [hq] at h
  | ok q =>
    simp only [hq] at h
    split at h
    · cases h
    · split at h
      · cases h
      · split at h
        · cases h
        · next hdir => exact ⟨q, rfl, hdir, (Except.ok.inj h).symm⟩

theorem of_createFresh {directory : FilePath} {name : LooseText} {i left : Nat}
    (h : d.createFresh directory name i left = .ok (temporary, d')) :
    d.create temporary 0o600 = .ok d' := by
  induction left generalizing i with
  | zero => simp [createFresh] at h
  | succ left ih =>
    rw [createFresh] at h
    split at h
    · cases h
    · cases hc : d.create (directory.child (temporaryName name i)) 0o600 with
      | ok created =>
        simp only [hc, Except.ok.injEq, Prod.mk.injEq] at h
        obtain ⟨rfl, rfl⟩ := h
        exact hc
      | error e =>
        simp only [hc] at h
        split at h
        · exact ih h
        · cases h

/-- The open file gets the bytes, all of them unless the device is full before. -/
theorem of_fill {old : ByteArray} {r : Except DiskFault Unit} (hp : d.place temporary = .ok p)
    (hn : d.node? p = some (.file old mode)) (h : d.fill room temporary bytes = (r, d')) :
    ∃ b, d' = d.set p (.file b mode) ∧ (r = .ok () → b = bytes) := by
  unfold fill at h
  simp only [status_eq_ok_iff.mpr ⟨hp, hn⟩, Node.mode] at h
  split at h
  · obtain ⟨rfl, rfl⟩ := Prod.mk.inj h
    exact ⟨_, rfl, nofun⟩
  · obtain ⟨rfl, rfl⟩ := Prod.mk.inj h
    exact ⟨_, rfl, fun _ => rfl⟩

theorem settle_eq_ok_iff : d.settle temporary path = .ok d' ↔
    path.flaw? = none ∧ d.rename temporary path = .ok d' := by
  unfold settle
  cases path.flaw? with
  | some flaw => simp
  | none => simp [mapError_eq_ok_iff]

/-! A temporary file stands where nothing stood before: no directory changes, so that paths lead
where they led. -/

theorem keepsDirectories_set (h : d.node? p = none) (n : Node) : KeepsDirectories d (d.set p n) :=
  (agreesBut_set d p n).keepsDirectories (by simp [h])

theorem keepsDirectories_of_set_file : KeepsDirectories (d.set p (.file bytes mode)) d := by
  intro q m hq
  by_cases hne : q = p
  · simp [hne] at hq
  · rwa [node?_set_of_ne hne] at hq

theorem probe_of_place (hname : path.flaw? = none) (hq : d.place path = .ok q) :
    d.probe path = .ok (d.node? q) := by
  cases hn : d.node? q with
  | none => simp [probe, FilePath.isNameable, hname, status, hq, hn, Refusal.meansAbsence]
  | some n => simp [probe, FilePath.isNameable, hname, status, hq, hn]

theorem of_probe (h : d.probe path = .ok (some n)) :
    ∃ p, d.place path = .ok p ∧ d.node? p = some n := by
  unfold probe at h
  split at h
  · split at h
    · next p m hs =>
      obtain rfl := Option.some.inj (Except.ok.inj h)
      exact ⟨p, status_eq_ok_iff.mp hs⟩
    · split at h <;> cases h
  · cases h

/-- A file where nothing stood does not matter to the mode that is found, if it has the mode that is
taken where nothing stands. -/
theorem mode_set_file (hnone : d.node? p = none) (q : Place) :
    ((d.set p (.file bytes mode)).node? q).elim mode Node.mode =
      (d.node? q).elim mode Node.mode := by
  by_cases hq : q = p
  · rw [hq, node?_set_self, hnone]
    rfl
  · rw [node?_set_of_ne hq]

/-- The new temporary file is empty. -/
theorem of_createTemporary (h : d.createTemporary path = .ok (temporary, d')) :
    ∃ p, d.place temporary = .ok p ∧ d.node? p = none ∧ d.isOpenAbove p = true ∧
      d' = d.set p (.file ByteArray.empty 0o600) := by
  rw [← d.umask.restrict_ownerMode]
  exact of_add (of_createFresh h)

/-- The temporary file takes over the mode of the file at `path`, if there is one. -/
theorem of_takeMode (hp : d.place temporary = .ok p) (hnone : d.node? p = none)
    (h : (d.set p (.file bytes mode)).takeMode path temporary = .ok d') :
    ∃ m, d' = d.set p (.file bytes m) ∧
      ∀ q, path.flaw? = none → d.place path = .ok q → m = (d.node? q).elim mode Node.mode := by
  have hkeeps := keepsDirectories_set hnone (.file bytes mode)
  have found {q : Place} (hname : path.flaw? = none) (hq : d.place path = .ok q) :=
    probe_of_place hname (hkeeps.place hq)
  unfold takeMode at h
  split at h
  · cases h
  · next hprobe =>
    obtain rfl := Except.ok.inj h
    refine ⟨mode, rfl, fun q hname hq => ?_⟩
    have hnode := Except.ok.inj ((found hname hq).symm.trans hprobe)
    rw [← mode_set_file hnone, hnode]
    rfl
  · next n hprobe =>
    obtain rfl := of_changeMode (hkeeps.place hp) (node?_set_self ..) h
    refine ⟨n.mode, by rw [set_set]; rfl, fun q hname hq => ?_⟩
    have hnode := Except.ok.inj ((found hname hq).symm.trans hprobe)
    rw [← mode_set_file hnone, hnode]
    rfl

/-- Once the temporary file has been installed, it is gone, and the file at `path` has the new
bytes. -/
theorem of_install {old : ByteArray} (hp : d.place temporary = .ok p) (hnone : d.node? p = none)
    (h : (d.set p (.file old mode)).install room temporary path bytes = (.ok (), d')) :
    ∃ q m, path.flaw? = none ∧ d.place path = .ok q ∧ (∀ k, d.node? q ≠ some (.directory k)) ∧
      d' = d.set q (.file bytes m) ∧ m = (d.node? q).elim mode Node.mode := by
  have htemporary (n : Node) := (keepsDirectories_set hnone n).place hp
  unfold install at h
  split at h
  · cases h
  · next filled hw =>
    obtain ⟨b, rfl, hb⟩ := of_fill (htemporary _) (node?_set_self ..) hw
    obtain rfl := hb rfl
    rw [set_set] at h
    split at h
    · cases h
    · next ready ht =>
      obtain ⟨m, rfl, hm⟩ := of_takeMode hp hnone ht
      split at h
      · cases h
      · next installed hsettle =>
        obtain ⟨hname, hr⟩ := settle_eq_ok_iff.mp hsettle
        obtain ⟨q, hq, hdir, rfl⟩ := of_rename (htemporary _) (node?_set_self ..) hr
        obtain rfl := (Prod.mk.inj h).2
        have hq := keepsDirectories_of_set_file.place hq
        refine ⟨q, m, hname, hq, fun k hk => ?_, by rw [erase_set hnone], hm q hname hq⟩
        exact hdir k (keepsDirectories_set hnone _ q k hk)

/-- An installation that fails leaves the temporary file where it is. -/
theorem of_install_error {e : ReplaceFault} {old : ByteArray} (hp : d.place temporary = .ok p)
    (hnone : d.node? p = none)
    (h : (d.set p (.file old mode)).install room temporary path bytes = (.error e, d')) :
    ∃ b m, d' = d.set p (.file b m) := by
  have htemporary := (keepsDirectories_set hnone (.file old mode)).place hp
  unfold install at h
  split at h
  · next full hw =>
    obtain ⟨b, rfl, _⟩ := of_fill htemporary (node?_set_self ..) hw
    rw [set_set] at h
    exact ⟨b, mode, (Prod.mk.inj h).2.symm⟩
  · next filled hw =>
    obtain ⟨b, rfl, _⟩ := of_fill htemporary (node?_set_self ..) hw
    rw [set_set] at h
    split at h
    · exact ⟨b, mode, (Prod.mk.inj h).2.symm⟩
    · next ready ht =>
      obtain ⟨m, rfl, _⟩ := of_takeMode hp hnone ht
      split at h
      · exact ⟨b, m, (Prod.mk.inj h).2.symm⟩
      · cases h

/-- Where nothing stands there is a place above. -/
theorem dropLast_ne (h : d.node? p = none) : p.dropLast ≠ p := by
  intro heq
  have hne : p ≠ [] := by
    rintro rfl
    exact node?_nil_ne_none d h
  have hlen := congrArg List.length heq
  have hpos := List.length_pos_iff.mpr hne
  rw [List.length_dropLast] at hlen
  omega

/-- A temporary file that could be made can be removed, and nothing is left of it. -/
theorem discard_set (hp : d.place temporary = .ok p) (hnone : d.node? p = none)
    (hopen : d.isOpenAbove p = true) :
    (d.set p (.file bytes mode)).discard temporary = d := by
  have habove := dropLast_ne hnone
  have hstatus : (d.set p (.file bytes mode)).status temporary = .ok (p, .file bytes mode) :=
    status_eq_ok_iff.mpr ⟨(keepsDirectories_set hnone _).place hp, node?_set_self ..⟩
  have hopen' : (d.set p (.file bytes mode)).isOpenAbove p = true := by
    rw [isOpenAbove, node?_set_of_ne habove]
    exact hopen
  simp [discard, unlink, hstatus, hopen', Node.isDirectory, erase_set hnone]

/-- A file that has been replaced has its new bytes and its old mode, or else that of a temporary
file, and nothing else has changed. -/
theorem of_replaceWithin (h : d.replaceWithin room path bytes = (.ok (), d')) :
    ∃ q m, path.flaw? = none ∧ d.place path = .ok q ∧ (∀ k, d.node? q ≠ some (.directory k)) ∧
      d' = d.set q (.file bytes m) ∧ m = (d.node? q).elim 0o600 Node.mode := by
  unfold replaceWithin at h
  split at h
  · cases h
  · next temporary created hc =>
    obtain ⟨p, hp, hnone, _, rfl⟩ := of_createTemporary hc
    split at h
    · next installed hi =>
      obtain rfl : installed = d' := (Prod.mk.inj h).2
      exact of_install hp hnone hi
    · cases h

/-- A replacement that fails changes nothing, wherever it fails. -/
theorem of_replaceWithin_error {e : ReplaceFault}
    (h : d.replaceWithin room path bytes = (.error e, d')) : d' = d := by
  unfold replaceWithin at h
  split at h
  · exact (Prod.mk.inj h).2.symm
  · next temporary created hc =>
    obtain ⟨p, hp, hnone, hopen, rfl⟩ := of_createTemporary hc
    split at h
    · cases h
    · next failed hi =>
      obtain ⟨b, m, rfl⟩ := of_install_error hp hnone hi
      exact (Prod.mk.inj h).2.symm.trans (discard_set hp hnone hopen)

/-- A path leads to the file that has been put where it led. -/
theorem status_set_file (hp : d.place path = .ok p) (hdir : ∀ k, d.node? p ≠ some (.directory k)) :
    (d.set p (.file bytes mode)).status path = .ok (p, .file bytes mode) := by
  have hkeep := (agreesBut_set d p (.file bytes mode)).keepsDirectories hdir
  exact status_eq_ok_iff.mpr ⟨hkeep.place hp, node?_set_self ..⟩

end Disk

end AsmListing
