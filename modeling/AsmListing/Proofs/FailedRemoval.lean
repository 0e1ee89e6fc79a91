import AsmListing.Proofs.Outline
import AsmListing.Proofs.Remainder
import AsmListing.Proofs.StoredRemoval

/-! What a removal that fails leaves on the disk. It is all or nothing but for one case: the new
text is written before the dirty buffer of the module is saved, and the encoding of the module may
have no bytes for that buffer. -/
namespace AsmListing

theorem Store.replace_of_write {s s' : Store} {module text : LooseText} {written : Written}
    (h : s.write module text = (.ok written, s')) : s' = { s with disk := s'.disk } ∧
      ∃ bytes, s.disk.replaceWithin none (s.path module) bytes = (.ok (), s'.disk) := by
  unfold write writeWithin at h
  dsimp only at h
  split at h
  · cases h
  · next bytes _ =>
    split at h
    · cases h
    · next disk hr =>
      obtain rfl := (Prod.mk.inj h).2
      exact ⟨rfl, _, hr⟩

/-- Once a file has been written, only a text without bytes in its encoding cannot be written to
it. -/
theorem Store.of_write_error_again {s s' s'' : Store} {module text next : LooseText}
    {written : Written} {e : Failure} {p : Place} {old : ByteArray} {mode : Nat}
    (hs : s.disk.status (s.path module) = .ok (p, .file old mode))
    (h : s.write module text = (.ok written, s'))
    (hagain : s'.write module next = (.error e, s'')) :
    s'' = s' ∧ ∃ fault, (s.encodingOf module).encode next = .error fault ∧
      e = .moduleAccess (.unencodable module (s.encodingOf module) fault) := by
  obtain ⟨heq, _, hr⟩ := replace_of_write h
  have hpath : s'.path module = s.path module := by
    rw [heq]
    rfl
  have hencoding : s'.encodingOf module = s.encodingOf module := by
    rw [heq]
    rfl
  obtain ⟨hstore, _, hfault⟩ := of_write_error hagain
  rw [hencoding] at hfault
  refine ⟨hstore, ?_⟩
  cases hnext : (s.encodingOf module).encode next with
  | error fault => exact ⟨fault, rfl, hfault fault hnext⟩
  | ok bytes =>
    have hok := Disk.replace_again hs hr ⟨bytes.toArray⟩
    unfold write writeWithin at hagain
    simp [hpath, hencoding, hnext, hok] at hagain

namespace Workspace

variable {w w' : Workspace} {module name text : LooseText} {collapse buffers : Bool}
  {mode : RemovalMode} {removal : Removal} {e : Failure}

/-- A removal is planned on the text of a file, whose encoding is remembered. -/
theorem of_planRemoval (h : w.planRemoval module name collapse = (.ok removal, w')) :
    ∃ p old m t f enc, w.store.disk.status (w.store.path module) = .ok (p, .file old m) ∧
      (w.store.path module).flaw? = none ∧ Encoding.detect old.data.toList = (t, enc) ∧
      name = f.loose ∧ Removal.plan? collapse t f = some removal ∧
      w' = ⟨w.store.remember (w.store.path module) enc, w.buffers⟩ := by
  unfold planRemoval at h
  split at h
  · cases h
  · next t store hr =>
    obtain ⟨p, old, m, enc, hs, hname, hd, rfl⟩ := Store.of_read hr
    split at h
    · cases h
    · next found hplan =>
      obtain ⟨hfound, rfl⟩ := Prod.mk.inj h
      obtain rfl := Except.ok.inj hfound
      obtain ⟨f, hf, hplan⟩ := Option.bind_eq_some_iff.mp hplan
      exact ⟨p, old, m, t, f, enc, hs, hname, hd, LooseText.text?_eq_some_iff.mp hf, hplan, rfl⟩

/-- A removal that cannot be planned leaves the disk as it is. -/
theorem of_planRemoval_error (h : w.planRemoval module name collapse = (.error e, w')) :
    w'.store.disk = w.store.disk ∧ ¬ e.IsUnencodable module := by
  unfold planRemoval at h
  split at h
  · next fault store hr =>
    obtain ⟨he, rfl⟩ := Prod.mk.inj h
    obtain rfl := Except.error.inj he
    obtain ⟨rfl, ⟨_, rfl⟩ | ⟨_, rfl⟩⟩ := Store.of_read_error hr
    · exact ⟨rfl, by simp [Failure.IsUnencodable]⟩
    · exact ⟨rfl, by simp [Failure.IsUnencodable]⟩
  · next t store hr =>
    obtain ⟨p, old, m, enc, _, _, _, rfl⟩ := Store.of_read hr
    split at h
    · obtain ⟨he, rfl⟩ := Prod.mk.inj h
      obtain rfl := Except.error.inj he
      exact ⟨rfl, by simp [Failure.IsUnencodable]⟩
    · cases h

/-- The text of a buffer cannot be saved where it cannot be written. -/
theorem of_save_error (ht : w.buffers.text module = .ok text)
    (h : w.save module = (.error e, w')) :
    ∃ store, w.store.write module text = (.error e, store) ∧ w' = { w with store } := by
  unfold save at h
  simp only [ht] at h
  split at h
  · next fault store hw =>
    obtain ⟨he, rfl⟩ := Prod.mk.inj h
    obtain rfl := Except.error.inj he
    exact ⟨store, hw, rfl⟩
  · cases h

/-- It is one of two writes that fails. -/
theorem of_carryOut_error (h : w.carryOut module removal buffers = (.error e, w')) :
    (∃ store, w.store.write module removal.text = (.error e, store) ∧ w' = { w with store }) ∨
      ∃ written store, w.store.write module removal.text = (.ok written, store) ∧
        buffers = true ∧ w.buffers.isDirty module = true ∧
        save ⟨store, w.buffers⟩ module = (.error e, w') := by
  unfold carryOut at h
  split at h
  · next fault store hw =>
    obtain ⟨he, rfl⟩ := Prod.mk.inj h
    obtain rfl := Except.error.inj he
    exact .inl ⟨store, hw, rfl⟩
  · next written store hw =>
    simp only at h
    split at h
    · next hdirty =>
      obtain ⟨hb, hm⟩ := Bool.and_eq_true_iff.mp hdirty
      split at h
      · next fault after hs =>
        obtain ⟨he, rfl⟩ := Prod.mk.inj h
        obtain rfl := Except.error.inj he
        exact .inr ⟨written, store, hw, hb, hm, hs⟩
      · cases h
    · cases h

/-- A removal that stopped between its two writes: the file of the module has the new text, and its
buffer, which was to be saved over it, has a text that the encoding of the module has no bytes
for. -/
structure IsHalfDone (w w' : Workspace) (module name : LooseText) (mode : RemovalMode)
    (enc : Encoding) (fault : EncodeFault) : Prop where
  isMeant : mode.dryRun = false ∧ mode.buffers = true
  isDirty : w.buffers.isDirty module = true
  isUnsaved : ∃ text, w.buffers.text module = .ok text ∧ enc.encode text = .error fault ∧
    fault.first ∈ text ∧ ¬ enc.Fits fault.first
  isWritten : ∃ p old m t f removal bytes,
    w.store.disk.status (w.store.path module) = .ok (p, .file old m) ∧
    Encoding.detect old.data.toList = (t, enc) ∧ name = f.loose ∧
    Removal.plan? mode.collapse t f = some removal ∧ enc.encode removal.text = .ok bytes ∧
    w'.store.disk = w.store.disk.set p (.file ⟨bytes.toArray⟩ m) ∧ ⟨bytes.toArray⟩ ≠ old

/-- A removal that fails has changed nothing or, if the buffer that it saves at last has no bytes
in the encoding of the module, stands half done. -/
theorem disk_of_failed_removal (hb : w.buffers.IsReachable)
    (h : w.removeRoutine module name mode = (.error e, w')) :
    (w'.store.disk = w.store.disk ∧ ¬ e.IsUnencodable module) ∨
      ∃ enc fault, e = .moduleAccess (.unencodable module enc fault) ∧
        IsHalfDone w w' module name mode enc fault := by
  unfold removeRoutine at h
  split at h
  · next fault after hp =>
    obtain ⟨he, rfl⟩ := Prod.mk.inj h
    obtain rfl := Except.error.inj he
    exact .inl (of_planRemoval_error hp)
  · next removal after hp =>
    obtain ⟨p, old, m, t, f, enc, hs, _, hd, hf, hplan, rfl⟩ := of_planRemoval hp
    split at h
    · cases h
    · next hdry =>
      let s := w.store.remember (w.store.path module) enc
      have henc : s.encodingOf module = enc := w.store.encodingOf_remember module enc
      rcases of_carryOut_error h with ⟨s', hw, rfl⟩ | ⟨written, s', hw, hbuf, hdirty, hsave⟩
      · -- the new text has no new characters, so it has bytes in the encoding that was found
        obtain ⟨rfl, hne, _⟩ := Store.of_write_error (s := s) hw
        rw [henc] at hne
        have hmem : ∀ c ∈ removal.text, c ∈ t := fun _ hc => Removal.mem_of_mem_text hplan hc
        exact .inl ⟨rfl, hne (Encoding.exists_encode_of_detect hd hmem)⟩
      · -- the file can be replaced again as before, so it is the text that has no bytes
        obtain ⟨text, htext⟩ := hb.exists_text hdirty
        obtain ⟨s'', hw', rfl⟩ := of_save_error (w := ⟨s', w.buffers⟩) htext hsave
        obtain ⟨rfl, fault, hfault, rfl⟩ := Store.of_write_error_again (s := s) hs hw hw'
        obtain ⟨bytes, hbytes, rfl⟩ := Store.of_write_file (s := s) hs hw
        rw [henc] at hbytes hfault ⊢
        have hnew : (⟨bytes.toArray⟩ : ByteArray) ≠ old := by
          rintro rfl
          have hsame := Encoding.encode_injective hbytes (Encoding.encode_of_detect hd)
          exact Removal.text_ne hplan (Text.loose_injective hsame)
        exact .inr ⟨enc, fault, rfl, ⟨by simpa using hdry, hbuf⟩, hdirty,
          ⟨text, htext, hfault, Encoding.of_encode_error hfault⟩,
          p, old, m, t, f, removal, bytes, hs, hd, hf, hplan, hbytes, rfl, hnew⟩

/-- A module in Latin-1, in whose buffer a snowman was written. -/
def snowman : Workspace :=
  let bytes := Utf8.encode "glabel f\n.size f, .-f\n" ++ [0xFF, 0x0A]
  (fresh { entries := [(["m.s"], .file ⟨bytes.toArray⟩ 0o644)] } ⟨.root, []⟩).run
    [.openModule "m.s", .edit "m.s" "glabel f\n.size f, .-f\n\u2603\n"]

theorem removeRoutine_snowman : snowman.removeRoutine "m.s" "f" ⟨false, true, true⟩ =
    (.error (.moduleAccess (.unencodable "m.s" .latin1
        ⟨.latin1, .char (Char.ofNat 0x2603), 22, 23⟩)),
      (snowman.removeRoutine "m.s" "f" ⟨false, true, true⟩).2) :=
  Prod.ext (by decide +kernel) rfl

/-- The new text of the module is written, and the snowman cannot be. -/
theorem disk_of_failed_removal_of_snowman :
    ∃ e w', snowman.removeRoutine "m.s" "f" ⟨false, true, true⟩ = (.error e, w') ∧
      snowman.buffers.IsReachable ∧
      ∃ enc fault, IsHalfDone snowman w' "m.s" "f" ⟨false, true, true⟩ enc fault := by
  have hreach : snowman.buffers.IsReachable := ⟨_, _, rfl⟩
  refine ⟨_, _, removeRoutine_snowman, hreach, ?_⟩
  rcases disk_of_failed_removal hreach removeRoutine_snowman with
    ⟨_, hne⟩ | ⟨enc, fault, _, hhalf⟩
  · exact (hne ⟨_, _, rfl⟩).elim
  · exact ⟨enc, fault, hhalf⟩

/-- A removal that fails can have changed a file. -/
theorem not_all_or_nothing :
    ¬ ∀ (disk : Disk) (root : FilePath) (encodings : List (FilePath × Encoding))
      (calls : List BufferCall) (module name : LooseText) (mode : RemovalMode)
      (e : Failure) (w' : Workspace),
      (run ⟨⟨disk, root, encodings⟩, Buffers.empty⟩ calls).removeRoutine module name mode =
        (.error e, w') →
      ∀ p, w'.store.disk.node? p =
        (run ⟨⟨disk, root, encodings⟩, Buffers.empty⟩ calls).store.disk.node? p := by
  intro hkept
  have hsame := hkept _ _ _ _ _ _ _ _ _ removeRoutine_snowman ["m.s"]
  exact absurd hsame (by decide +kernel)

end Workspace

end AsmListing
