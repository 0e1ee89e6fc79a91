import AsmListing.Proofs.PlainJson
import AsmListing.Proofs.ReadJson
import AsmListing.Proofs.SettingsWrite

/-! Writing the settings merges the updates into the file. What is loaded after that are the defaults
under the old settings under the updates, and to write the same updates once more changes nothing. -/
namespace AsmListing

namespace Settings

variable {d prepared after : Disk} {root path : FilePath} {known updates : Fields}

/-! The directory of the settings. -/

/-- The directory of the settings is there. -/
def HasDirectory (d : Disk) (root : FilePath) : Prop :=
  (directory root).flaw? = none ∧ d.place (directory root) = .ok (directoryPlace root) ∧
    ∃ m, d.node? (directoryPlace root) = some (.directory m)

theorem hasDirectory_of_prepare (h : prepare d root = .ok prepared) :
    HasDirectory prepared root := by
  obtain ⟨hname, hmake⟩ := prepare_eq_ok_iff.mp h
  unfold makeDirectory at hmake
  split at hmake
  · next made hadd =>
    obtain rfl := Except.ok.inj hmake
    obtain ⟨p, hp, hnone, _, rfl⟩ := Disk.of_add hadd
    obtain rfl := Disk.place_eq hp
    exact ⟨hname, (Disk.keepsDirectories_set hnone _).place hp, _, Disk.node?_set_self ..⟩
  · split at hmake
    · cases hmake
    · split at hmake
      · cases hmake
      · next m hprobe =>
        obtain rfl := Except.ok.inj hmake
        obtain ⟨p, hp, hn⟩ := Disk.of_probe hprobe
        obtain rfl := Disk.place_eq hp
        exact ⟨hname, hp, m, hn⟩
      · cases hmake

theorem prepare_of_hasDirectory (h : HasDirectory d root) : prepare d root = .ok d := by
  obtain ⟨hname, hp, m, hn⟩ := h
  have hprobe := Disk.probe_of_place hname hp
  rw [hn] at hprobe
  refine prepare_eq_ok_iff.mpr ⟨hname, ?_⟩
  simp [makeDirectory, Disk.makeDirectory, Disk.add, hp, hn, hprobe]

theorem HasDirectory.of_keepsDirectories (h : HasDirectory d root)
    (hkeeps : Disk.KeepsDirectories d after) : HasDirectory after root := by
  obtain ⟨hname, hp, m, hm⟩ := h
  exact ⟨hname, hkeeps.place hp, m, hkeeps _ m hm⟩

section Limited

variable [NestingLimit]

/-! Stored settings. -/

theorem of_parse {name : LooseText} {bytes : Bytes} (h : parse name bytes = .ok known) :
    ∃ text, Utf8.decode bytes = .ok text ∧ Json.ofText text.withLineFeeds = .ok (.object known) := by
  unfold parse at h
  split at h
  · cases h
  · next text hdecode =>
    dsimp only at h
    split at h
    · cases h
    · cases h
    · next fields htext =>
      obtain rfl := Except.ok.inj h
      exact ⟨text, hdecode, htext⟩
    · cases h

/-- Stored settings are read from the file, and there are none without it. -/
theorem of_stored (h : stored d root = .ok known) :
    d.probe (file root) = .ok none ∧ known = [] ∨ ∃ bytes, d.read (file root) = .ok bytes ∧
      parse (file root).toText bytes.data.toList = .ok known := by
  unfold stored at h
  dsimp only at h
  split at h
  · cases h
  · next hprobe => exact Or.inl ⟨hprobe, (Except.ok.inj h).symm⟩
  · split at h
    · cases h
    · next bytes hread => exact Or.inr ⟨bytes, hread, h⟩

/-- What is stored can be read. -/
theorem isReadable_of_stored (h : stored d root = .ok known) :
    (Json.object known).IsReadable NestingLimit.levels := by
  obtain ⟨_, rfl⟩ | ⟨bytes, _, hparse⟩ := of_stored h
  · obtain ⟨n, hn⟩ := NestingLimit.exists_levels
    rw [hn]
    exact .object List.nodup_nil (by nofun) (by nofun)
  · obtain ⟨text, _, htext⟩ := of_parse hparse
    exact Json.isReadable_of_ofText htext

theorem shape_of_stored (h : stored d root = .ok known) : known.keys.Nodup ∧
    (∀ key ∈ known.keys, key.IsUnpaired) ∧
    ∀ e ∈ known, e.2.IsReadable (NestingLimit.levels - 1) := by
  obtain ⟨n, hn⟩ := NestingLimit.exists_levels
  have hreadable := isReadable_of_stored h
  rw [hn] at hreadable ⊢
  exact Json.isReadable_object_iff.mp hreadable

theorem nodup_of_stored (h : stored d root = .ok known) : known.keys.Nodup := (shape_of_stored h).1

theorem areStorable_of_stored (h : stored d root = .ok known)
    (hwhole : ∀ e ∈ known, e.2.IsWhole) : known.AreStorable := fun e he =>
  have hshape := shape_of_stored h
  ⟨hshape.2.1 e.1 (List.mem_map_of_mem he), hshape.2.2 e he, hwhole e he⟩

/-- What a file that can be read holds is parsed. -/
theorem stored_eq_parse {p : Place} {bytes : ByteArray} {mode : Nat}
    (hname : (file root).flaw? = none)
    (hs : d.status (file root) = .ok (p, .file bytes mode)) (hmode : mode.testBit 8 = true) :
    stored d root = parse (file root).toText bytes.data.toList := by
  obtain ⟨hp, hn⟩ := Disk.status_eq_ok_iff.mp hs
  rw [stored, Disk.probe_of_place hname hp, hn]
  simp only [Disk.read_file hs, if_pos hmode]

/-- Where the directory is made, the stored settings stay what they are. -/
theorem stored_of_prepare (hd : d.WellFormed) (hstored : stored d root = .ok known)
    (hprepare : prepare d root = .ok prepared) : stored prepared root = .ok known := by
  obtain ⟨hname, rfl | ⟨hp, hnone, rfl⟩⟩ := of_prepare hprepare
  · exact hstored
  · have hlong := isOverlong_of_stored (flaw?_file hname) hstored
    obtain rfl := Except.ok.inj ((stored_of_missing hlong hp hnone).symm.trans hstored)
    exact (of_made hd hlong hname hp hnone).1

/-! The file of the settings. -/

theorem merged_eq_ok_iff {fields : Fields} (hstored : stored d root = .ok known) :
    merged d root updates = .ok fields ↔ fields = known.putAll updates ∧
      flaw? ((defaults.putAll known).putAll updates) = none := by
  rw [← Fields.putAll_putAll (nodup_of_stored hstored)]
  simp only [merged, hstored, validate]
  cases flaw? (defaults.putAll (known.putAll updates)) with
  | none => simp [eq_comm]
  | some fault => simp

theorem of_write (h : write d root updates = (.ok path, after)) :
    path = file root ∧ ∃ prepared fields, prepare d root = .ok prepared ∧
      merged prepared root updates = .ok fields ∧
      prepared.write (file root) ⟨(Utf8.encode (render fields)).toArray⟩ = .ok after := by
  unfold write at h
  split at h
  · cases h
  · next prepared hprepare =>
    split at h
    · cases h
    · next fields hmerged =>
      split at h
      · cases h
      · next written hwrite =>
        obtain ⟨hpath, rfl⟩ := Prod.mk.inj h
        exact ⟨(Except.ok.inj hpath).symm, prepared, fields, hprepare, hmerged, hwrite⟩

/-- The disk lets the settings be written: their directory is there or can be made, and the file in
it can be written. -/
def IsWritable (d : Disk) (root : FilePath) : Prop :=
  ∃ prepared, prepare d root = .ok prepared ∧ prepared.TakesFile (file root)

/-- A write succeeds if the disk lets it and the updates make valid settings. -/
theorem write_succeeds_iff (hd : d.WellFormed) (hstored : stored d root = .ok known) :
    (∃ path, (write d root updates).1 = .ok path) ↔
      IsWritable d root ∧ flaw? ((defaults.putAll known).putAll updates) = none := by
  constructor
  · rintro ⟨path, h⟩
    obtain ⟨-, prepared, fields, hprepare, hmerged, hwrite⟩ := of_write (Prod.ext h rfl)
    have hprepared := stored_of_prepare hd hstored hprepare
    exact ⟨⟨prepared, hprepare, (Disk.write_eq_ok_iff.mp hwrite).1⟩,
      ((merged_eq_ok_iff hprepared).mp hmerged).2⟩
  · rintro ⟨⟨prepared, hprepare, htakes⟩, hvalid⟩
    have hprepared := stored_of_prepare hd hstored hprepare
    have hmerged := (merged_eq_ok_iff hprepared).mpr ⟨rfl, hvalid⟩
    have hwrite (bytes : ByteArray) : prepared.write (file root) bytes = .ok _ :=
      Disk.write_eq_ok_iff.mpr ⟨htakes, rfl⟩
    exact ⟨file root, by simp only [write, hprepare, hmerged, hwrite]⟩

/-- The file can be read after a write, since it could be read before or was not there. -/
theorem isReadable_mode (hname : (file root).flaw? = none)
    (hstored : stored d root = .ok known) (hp : d.place (file root) = .ok (filePlace root)) :
    ((d.node? (filePlace root)).elim d.umask.fileMode Node.mode).testBit 8 = true := by
  obtain ⟨hprobe, _⟩ | ⟨bytes, hread, _⟩ := of_stored hstored
  · rw [Disk.probe_of_place hname hp] at hprobe
    rw [Except.ok.inj hprobe]
    exact d.umask.testBit_fileMode (by decide) (by decide)
  · obtain ⟨p, mode, hs⟩ := Disk.of_read hread
    obtain ⟨rfl, hn⟩ := Disk.eq_of_status hs hp
    rw [Disk.read_file hs] at hread
    split at hread
    · next hmode =>
      rw [hn]
      exact hmode
    · cases hread

/-- The file gives back the settings that have been written to it. -/
theorem stored_of_write {fields : Fields} (hname : (file root).flaw? = none)
    (hstored : stored d root = .ok known) (h : fields.AreStorable) (hkeys : fields.keys.Nodup)
    (hwrite : d.write (file root) ⟨(Utf8.encode (render fields)).toArray⟩ = .ok after) :
    stored after root = .ok fields := by
  have hmode := isReadable_mode hname hstored (Disk.write_eq_ok_iff.mp hwrite).1.1
  rw [stored_eq_parse hname (Disk.status_of_write hwrite) hmode]
  exact parse_render h hkeys _

/-- The file has the merged fields after a write, and they are loaded over the defaults. -/
theorem stored_merged (hd : d.WellFormed) (hstored : stored d root = .ok known)
    (hknown : known.AreStorable) (hupdates : updates.AreStorable)
    (h : write d root updates = (.ok path, after)) :
    stored after root = .ok (known.putAll updates) ∧
      load after root = .ok ((defaults.putAll known).putAll updates) := by
  obtain ⟨-, prepared, fields, hprepare, hmerged, hwrite⟩ := of_write h
  have hnodup := nodup_of_stored hstored
  have hprepared := stored_of_prepare hd hstored hprepare
  obtain ⟨rfl, hvalid⟩ := (merged_eq_ok_iff hprepared).mp hmerged
  have hname : (file root).flaw? = none := flaw?_file (of_prepare hprepare).1
  have hafter := stored_of_write hname hprepared (hknown.putAll hupdates)
    (Fields.nodup_putAll hnodup updates) hwrite
  refine ⟨hafter, ?_⟩
  rw [← Fields.putAll_putAll hnodup] at hvalid ⊢
  simp only [load, hafter, validate, hvalid]

/-- The settings can be written again after a write. -/
theorem isWritable_of_write (h : write d root updates = (.ok path, after)) :
    prepare after root = .ok after ∧ IsWritable after root := by
  obtain ⟨-, prepared, fields, hprepare, -, hwrite⟩ := of_write h
  have hdirectory := (hasDirectory_of_prepare hprepare).of_keepsDirectories
    (Disk.keepsDirectories_of_write hwrite)
  have hsame := prepare_of_hasDirectory hdirectory
  exact ⟨hsame, after, hsame, (Disk.write_eq_ok_iff.mp (Disk.write_again hwrite)).1⟩

/-- Writing the settings merges the updates into them: where the file holds `known`, or nothing is
there and `known` is empty, the write succeeds if the disk lets it and the updates make valid
settings over these and the defaults. Then the file has the merged fields, the keys of `known` in
their places and the new ones behind them, and what is loaded is the same merge over the defaults.
The same write once more changes nothing. -/
theorem write_merges (hd : d.WellFormed) (hstored : stored d root = .ok known)
    (hwhole : ∀ e ∈ known, e.2.IsWhole) (hupdates : updates.AreStorable) :
    ((∃ path, (write d root updates).1 = .ok path) ↔
      IsWritable d root ∧ flaw? ((defaults.putAll known).putAll updates) = none) ∧
    ∀ path after, write d root updates = (.ok path, after) →
      path = file root ∧
      after.bytes? (file root) =
        some ⟨(Utf8.encode (render (known.putAll updates))).toArray⟩ ∧
      stored after root = .ok (known.putAll updates) ∧
      (known.putAll updates).keys =
        known.keys ++ (updates.keys.filter fun k => decide (k ∉ known.keys)).eraseDups ∧
      (∀ key ∉ updates.keys, (known.putAll updates).get? key = known.get? key) ∧
      load after root = .ok ((defaults.putAll known).putAll updates) ∧
      write after root updates = (.ok (file root), after) := by
  refine ⟨write_succeeds_iff hd hstored, fun path after h => ?_⟩
  have hknown := areStorable_of_stored hstored hwhole
  obtain ⟨hafter, hload⟩ := stored_merged hd hstored hknown hupdates h
  obtain ⟨hsame, _⟩ := isWritable_of_write h
  obtain ⟨rfl, prepared, fields, hprepare, hmerged, hwrite⟩ := of_write h
  have hnodup := nodup_of_stored hstored
  obtain ⟨rfl, hvalid⟩ :=
    (merged_eq_ok_iff (stored_of_prepare hd hstored hprepare)).mp hmerged
  refine ⟨rfl, ?_, hafter, Fields.keys_putAll known updates, fun key hkey => ?_, hload, ?_⟩
  · simp [Disk.bytes?, Disk.status_of_write hwrite]
  · have hnone : Fields.get? updates.reverse key = none := by
      rw [Fields.get?_eq_none_iff]
      simpa [Fields.keys] using hkey
    rw [Fields.get?_putAll, hnone, Option.none_or]
  · -- the directory is there now, and the updates leave the merged fields as they are
    have hself := Fields.putAll_putAll_self hnodup updates
    have hagain : merged after root updates = .ok (known.putAll updates) := by
      refine (merged_eq_ok_iff hafter).mpr ⟨hself.symm, ?_⟩
      rwa [← Fields.putAll_putAll (Fields.nodup_putAll hnodup updates), hself,
        Fields.putAll_putAll hnodup]
    simp only [write, hsame, hagain, Disk.write_again hwrite]

end Limited

/-- A workspace at the root of the tree, with a file of settings that has the given bytes. -/
def settingsFile (bytes : Bytes) : Disk :=
  (Disk.empty.set [".asmsplit"] (.directory 0o755)).set [".asmsplit", "config.json"]
    (.file ⟨bytes.toArray⟩ 0o644)

theorem wellFormed_settingsFile (bytes : Bytes) : (settingsFile bytes).WellFormed := by
  have hdirectory : (Disk.empty.set [".asmsplit"] (.directory 0o755)).WellFormed :=
    Disk.wellFormed_empty.set (by decide) ⟨_, rfl⟩ (.inl rfl)
  exact hdirectory.set (by decide) ⟨_, rfl⟩ (.inr fun _ => nofun)

theorem status_settingsFile (bytes : Bytes) : (settingsFile bytes).status (file ⟨.root, []⟩) =
    .ok ([".asmsplit", "config.json"], .file ⟨bytes.toArray⟩ 0o644) := by
  rfl

theorem prepare_settingsFile (bytes : Bytes) :
    prepare (settingsFile bytes) ⟨.root, []⟩ = .ok (settingsFile bytes) := rfl

theorem isWritable_settingsFile (bytes : Bytes) : IsWritable (settingsFile bytes) ⟨.root, []⟩ :=
  ⟨settingsFile bytes, prepare_settingsFile bytes, rfl, rfl⟩

theorem stored_settingsFile (bytes : Bytes) :
    stored (settingsFile bytes) ⟨.root, []⟩ = parse "/.asmsplit/config.json" bytes :=
  stored_eq_parse rfl (status_settingsFile bytes) rfl

/-- Settings that are no valid ones, behind a field that is no setting. -/
def oddFields : Fields := [("x", .list [.int 1]), (extensionsKey, .text ".s")]

theorem areStorable_oddFields : oddFields.AreStorable := by
  have hone : (1 : Int).natAbs < 10 ^ JsonExcess.digitLimit :=
    Nat.one_lt_pow (by decide) (by decide)
  refine List.forall_mem_cons.mpr ⟨⟨?_, ?_, ?_⟩, List.forall_mem_cons.mpr ⟨⟨?_, ?_, ?_⟩, by nofun⟩⟩
  · exact LooseText.isUnpaired_loose _
  · exact .list (List.forall_mem_singleton.mpr (.int hone))
  · exact .list (List.forall_mem_singleton.mpr (.int 1))
  · exact LooseText.isUnpaired_loose _
  · exact .string (LooseText.isUnpaired_loose _)
  · exact .string _

/-- A workspace with these settings. -/
def oddWorkspace : Disk := settingsFile (Utf8.encode (render oddFields))

theorem stored_oddWorkspace : stored oddWorkspace ⟨.root, []⟩ = .ok oddFields := by
  rw [oddWorkspace, stored_settingsFile]
  exact parse_render areStorable_oddFields (by decide) _

/-- A list of suffixes, as an update. -/
def suffixUpdate : Fields := [(extensionsKey, Json.texts [".s"])]

theorem areStorable_suffixUpdate : suffixUpdate.AreStorable := by
  refine List.forall_mem_singleton.mpr ⟨LooseText.isUnpaired_loose _, ?_, ?_⟩
  · exact .list (List.forall_mem_singleton.mpr (.string (LooseText.isUnpaired_loose _)))
  · exact .list (List.forall_mem_singleton.mpr (.string _))

/-- The update makes settings valid that were not, and the other field stays in its place. -/
theorem write_merges_of_oddFields :
    oddWorkspace.WellFormed ∧ stored oddWorkspace ⟨.root, []⟩ = .ok oddFields ∧
    (∀ e ∈ oddFields, e.2.IsWhole) ∧ suffixUpdate.AreStorable ∧
    (∃ path, (write oddWorkspace ⟨.root, []⟩ suffixUpdate).1 = .ok path) ∧
    ∀ path after, write oddWorkspace ⟨.root, []⟩ suffixUpdate = (.ok path, after) →
      stored after ⟨.root, []⟩ = .ok [("x", .list [.int 1]), (extensionsKey, Json.texts [".s"])] ∧
      load after ⟨.root, []⟩ = .ok [(extensionsKey, Json.texts [".s"]),
        (excludeKey, Json.texts []), (collapseKey, .bool true), ("x", .list [.int 1])] := by
  have hd : oddWorkspace.WellFormed := wellFormed_settingsFile _
  have hwhole : ∀ e ∈ oddFields, e.2.IsWhole := fun e he => (areStorable_oddFields e he).2.2
  obtain ⟨hiff, hafter⟩ := write_merges hd stored_oddWorkspace hwhole areStorable_suffixUpdate
  refine ⟨hd, stored_oddWorkspace, hwhole, areStorable_suffixUpdate, ?_, fun path after h => ?_⟩
  · exact hiff.mpr ⟨isWritable_settingsFile _, by decide⟩
  · obtain ⟨_, _, hfields, _, _, hload, _⟩ := hafter path after h
    exact ⟨hfields, hload⟩

/-- A file with a number of too many digits is not read. -/
theorem stored_longInteger {n : Nat} (hn : JsonExcess.digitLimit < (Text.ofNat n).length) :
    stored (settingsFile (Utf8.encode (render [("x", .int n)]))) ⟨.root, []⟩ =
      .error (.excessive (.integer (Text.ofNat n).length)) := by
  have hplain : (render [("x", .int n)]).IsPlain := by
    refine Text.IsPlain.append (Json.isPlain_toText (.object ?_)) (by decide)
    exact List.forall_mem_singleton.mpr (.int n)
  have htext : Json.ofText (render [("x", .int n)]) = .error (.excess (.integer _)) :=
    Json.ofText_longInteger (LooseText.isUnpaired_loose "x") hn
  rw [stored_settingsFile]
  simp only [parse, Utf8.decode_encode, Text.withLineFeeds_of_isPlain hplain, htext]

theorem exists_longInteger : ∃ n, JsonExcess.digitLimit < (Text.ofNat n).length := by
  refine ⟨10 ^ JsonExcess.digitLimit, Nat.not_le.mp fun hshort => ?_⟩
  exact Nat.lt_irrefl _ ((Nat.length_toDigits_le_iff (by decide) (by decide)).mp hshort)

/-- Updates to a file with a number of too many digits fail, even though they make valid settings
over the fields in it. -/
theorem not_write_merges :
    ¬ ∀ (d : Disk) (root : FilePath) (known updates : Fields), d.WellFormed → IsWritable d root →
      d.bytes? (file root) = some ⟨(Utf8.encode (render known)).toArray⟩ → known.keys.Nodup →
      (∀ e ∈ known, e.2.IsWhole) → (∀ e ∈ updates, e.2.IsWhole) →
      flaw? ((defaults.putAll known).putAll updates) = none →
      ∃ path, (write d root updates).1 = .ok path := by
  intro h
  obtain ⟨n, hn⟩ := exists_longInteger
  obtain ⟨path, hpath⟩ := h (settingsFile (Utf8.encode (render [("x", .int n)])))
    ⟨.root, []⟩ [("x", .int n)] [(collapseKey, .bool false)] (wellFormed_settingsFile _)
    (isWritable_settingsFile _) (by rw [Disk.bytes?, status_settingsFile])
    (List.pairwise_singleton _ _)
    (List.forall_mem_singleton.mpr (.int n)) (List.forall_mem_singleton.mpr (.bool false)) rfl
  simp only [write, prepare_settingsFile, merged, stored_longInteger hn, reduceCtorEq] at hpath

end Settings

end AsmListing
