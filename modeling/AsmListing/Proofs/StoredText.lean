import AsmListing.Proofs.Replacement
import AsmListing.Proofs.Store

/-! The text of a module as it goes to the disk and comes back: written back right after it was
read, read again right after it was written, and left alone by a write that fails. -/
namespace AsmListing

/-- A call of the store. -/
inductive StoreCall where
  | read (module : LooseText)
  | write (module text : LooseText)
  deriving DecidableEq, Repr

namespace Store

variable {s s' : Store} {module text : LooseText} {written : Written} {bytes : ByteArray}
  {p : Place} {mode : Nat}

/-- The store after a call, whether it succeeded or not. -/
def call (s : Store) : StoreCall → Store
  | .read module => (s.read module).2
  | .write module text => (s.write module text).2

/-- The store after a run of calls. -/
def run (s : Store) (calls : List StoreCall) : Store := calls.foldl call s

/-! Written back after it was read. -/

theorem read_eq (hname : (s.path module).flaw? = none)
    (h : s.disk.read (s.path module) = .ok bytes) :
    s.read module = (.ok (Encoding.detect bytes.data.toList).1,
      s.remember (s.path module) (Encoding.detect bytes.data.toList).2) := by
  simp [read, load, hname, h]

theorem read_refused {fault : DiskFault} (hname : (s.path module).flaw? = none)
    (h : s.disk.read (s.path module) = .error fault) :
    s.read module = (.error (.moduleAccess (.unreadable module fault)), s) := by
  simp [read, load, hname, h]

/-- Bytes that a file already holds do not change it, and only the disk can refuse them. -/
theorem write_own_bytes (hname : (s.path module).flaw? = none)
    (hs : s.disk.status (s.path module) = .ok (p, .file bytes mode))
    (henc : (s.encodingOf module).encode text = .ok bytes.data.toList) :
    (s.write module text).2 = s ∧
      ((s.write module text).1 = .ok ⟨s.path module, bytes.size, s.encodingOf module⟩ ∨
        ∃ fault, (s.disk.replaceWithin none (s.path module) bytes).1 = .error (.refused fault) ∧
          (s.write module text).1 = .error (.moduleAccess (.unwritable module fault))) := by
  obtain ⟨_, herr, _⟩ | ⟨data, hok, hend⟩ := writeWithin_cases s none module text
  · simp [henc] at herr
  · obtain rfl : bytes.data.toList = data := by simpa [henc] using hok
    obtain ⟨fault, hfault, hw⟩ | ⟨q, m, _, hq, _, hm, hw⟩ := hend
    · rw [write, hw]
      cases fault with
      | refused fault => exact ⟨rfl, .inr ⟨fault, by rw [hfault], rfl⟩⟩
      | flawed flaw => exact absurd hname (Disk.flaw?_ne_none_of_replaceWithin hfault)
    · obtain ⟨rfl, hn⟩ := Disk.eq_of_status hs hq
      obtain rfl : m = mode := by simpa [hn, Node.mode] using hm
      rw [write, hw]
      exact ⟨by simp [Disk.set_file_self hn], .inl rfl⟩

/-- Any bytes are read in the one encoding that gives them back. So a file whose text is written
back is left as it is, and nothing but the disk can refuse that. -/
theorem write_back_of_read :
    (∀ bytes : Bytes, ∃ t e, Encoding.detect bytes = (t, e) ∧ e.encode t = .ok bytes ∧
      (e = .utf8Marked ↔ byteOrderMark <+: bytes ∧ Utf8.IsUtf8 bytes) ∧
      (e = .utf8 ↔ ¬ byteOrderMark <+: bytes ∧ Utf8.IsUtf8 bytes) ∧
      (e = .latin1 ↔ ¬ Utf8.IsUtf8 bytes)) ∧
    ∀ (s : Store) (module : LooseText) (bytes : ByteArray), (s.path module).flaw? = none →
      s.disk.read (s.path module) = .ok bytes →
      ∃ t e s', Encoding.detect bytes.data.toList = (t, e) ∧ s.read module = (.ok t, s') ∧
        s'.encodingOf module = e ∧ s'.disk = s.disk ∧ (s'.write module t).2 = s' ∧
        ((s'.write module t).1 = .ok ⟨s.path module, bytes.size, e⟩ ∨
          ∃ fault, (s.disk.replaceWithin none (s.path module) bytes).1 = .error (.refused fault) ∧
            (s'.write module t).1 = .error (.moduleAccess (.unwritable module fault))) := by
  refine ⟨fun bytes => ?_, fun s module bytes hname hread => ?_⟩
  · rcases hd : Encoding.detect bytes with ⟨t, e⟩
    exact ⟨t, e, rfl, Encoding.encode_of_detect hd, Encoding.encoding_of_detect hd⟩
  · rcases hd : Encoding.detect bytes.data.toList with ⟨t, e⟩
    obtain ⟨p, mode, hs⟩ := Disk.of_read hread
    have hr := read_eq hname hread
    rw [hd] at hr
    have henc := encodingOf_remember s module e
    have hback := Encoding.encode_of_detect hd
    rw [← henc] at hback
    obtain ⟨hsame, hend⟩ := write_own_bytes (s := s.remember (s.path module) e) hname hs hback
    rw [henc] at hend
    exact ⟨t, e, _, rfl, hr, henc, rfl, hsame, hend⟩

/-- A file with a mark in front of what is not UTF-8. -/
def markedLatin1 : Store :=
  ⟨{ entries := [(["m.s"], .file ⟨#[0xEF, 0xBB, 0xBF, 0xFF]⟩ 0o644)] }, ⟨.root, []⟩, []⟩

/-- It is read in Latin-1, mark and all, and so the mark is not lost. -/
theorem write_back_of_markedLatin1 :
    ∃ t s', markedLatin1.read "m.s" = (.ok t, s') ∧ s'.encodingOf "m.s" = .latin1 ∧
      (s'.write "m.s" t).2.disk = markedLatin1.disk := by
  obtain ⟨hbytes, hstore⟩ := write_back_of_read
  obtain ⟨t, e, s', hd, hr, henc, hdisk, hsame, _⟩ :=
    hstore markedLatin1 "m.s" ⟨#[0xEF, 0xBB, 0xBF, 0xFF]⟩ (by decide) rfl
  have hlatin : (Encoding.detect [0xEF, 0xBB, 0xBF, 0xFF]).2 = .latin1 := by decide +kernel
  refine ⟨t, s', hr, ?_, by rw [hsame, hdisk]⟩
  rw [henc, ← hlatin]
  exact (congrArg Prod.snd hd).symm

/-! Read again after it was written. -/

/-- The text is read again as it was written exactly where its encoding reads it back. A file whose
mode keeps its owner from reading keeps that mode. -/
theorem read_of_write (h : s.write module text = (.ok written, s')) :
    ∃ bytes p mode, (s.encodingOf module).encode text = .ok bytes ∧
      s.disk.place (s.path module) = .ok p ∧ mode = (s.disk.node? p).elim 0o600 Node.mode ∧
      s'.disk.status (s.path module) = .ok (p, .file ⟨bytes.toArray⟩ mode) ∧
      (mode.testBit 8 = true → ∃ t, (s'.read module).1 = .ok t ∧ t = (Encoding.detect bytes).1 ∧
        (t.loose = text ↔ (s.encodingOf module).ReadsBack text)) ∧
      (mode.testBit 8 = false → (s'.read module).1 =
        .error (.moduleAccess (.unreadable module ⟨.denied, [(s.path module).toText]⟩))) := by
  obtain ⟨bytes, p, mode, henc, hname, hp, hdir, hmode, heq⟩ := of_write h
  have hpath : s'.path module = s.path module := by
    rw [heq]
    rfl
  have hs : s'.disk.status (s.path module) = .ok (p, .file ⟨bytes.toArray⟩ mode) := by
    rw [heq]
    exact Disk.status_set_file hp hdir
  have hread := Disk.read_file hs
  refine ⟨bytes, p, mode, henc, hp, hmode, hs, fun hopen => ?_, fun hclosed => ?_⟩
  · rw [if_pos hopen, ← hpath] at hread
    rw [← hpath] at hname
    rw [read_eq hname hread]
    exact ⟨_, rfl, rfl, Encoding.detect_encode_eq_iff henc⟩
  · rw [if_neg (by simp [hclosed])] at hread
    rw [← hpath] at hname hread ⊢
    rw [read_refused hname hread]

/-- A store in which a module in Latin-1 has been read. -/
def readLatin1 : Store :=
  run ⟨{ entries := [(["m.s"], .file ⟨#[0xFF, 0x0A]⟩ 0o664)] }, ⟨.root, []⟩, []⟩ [.read "m.s"]

theorem write_readLatin1 : readLatin1.write "m.s" "\u00c3\u00a9\n" =
    (.ok ⟨⟨.root, ["m.s"]⟩, 3, .latin1⟩, (readLatin1.write "m.s" "\u00c3\u00a9\n").2) :=
  Prod.ext (by decide +kernel) rfl

theorem status_readLatin1 :
    (readLatin1.write "m.s" "\u00c3\u00a9\n").2.disk.status (readLatin1.path "m.s") =
      .ok (["m.s"], .file ⟨#[0xC3, 0xA9, 0x0A]⟩ 0o664) := by
  decide +kernel

/-- Two characters of Latin-1 that are one in UTF-8 are read as that one. -/
theorem read_of_write_readLatin1 :
    ∃ s' t, readLatin1.write "m.s" "\u00c3\u00a9\n" = (.ok ⟨⟨.root, ["m.s"]⟩, 3, .latin1⟩, s') ∧
      (s'.read "m.s").1 = .ok t ∧ t = "\u00e9\n" ∧
      ¬ Encoding.latin1.ReadsBack "\u00c3\u00a9\n" := by
  obtain ⟨bytes, p, mode, _, _, _, hs, hopen, _⟩ := read_of_write write_readLatin1
  obtain ⟨⟨⟩, ⟨⟩⟩ := status_readLatin1.symm.trans hs
  obtain ⟨t, hread, ht, hback⟩ := hopen (by decide)
  have henc : readLatin1.encodingOf "m.s" = .latin1 := by decide +kernel
  have hone : t = "\u00e9\n" := ht.trans (by decide +kernel)
  rw [henc] at hback
  refine ⟨_, t, write_readLatin1, hread, hone, fun hreads => ?_⟩
  exact absurd (hone ▸ hback.mpr hreads) (by decide)

/-- What is written need not be what is read. -/
theorem not_read_of_write :
    ¬ ∀ (disk : Disk) (root : FilePath) (calls : List StoreCall) (module : LooseText) (text : Text)
      (written : Written) (s' : Store),
      (run ⟨disk, root, []⟩ calls).write module text = (.ok written, s') →
      (s'.read module).1 = .ok text := by
  intro hall
  have hread := hall _ _ _ _ _ _ _ write_readLatin1
  exact absurd hread (by decide +kernel)

/-! Left alone by a write that fails. -/

/-- A write does all or nothing, also where the device has room for some bytes only. No temporary
file stays: nothing but the module's own file has changed. Only a path that no disk takes fails in
another way than the module does. -/
theorem write_atomic (s : Store) (room : Option Nat) (module text : LooseText) :
    (∃ fault, s.writeWithin room module text = (.error (.moduleAccess fault), s)) ∨
      (∃ flaw, s.writeWithin room module text = (.error (.badPath flaw), s) ∧
        ∃ p ∈ (s.path module).toText, p.IsBarred) ∨
      ∃ written s' bytes p mode, s.writeWithin room module text = (.ok written, s') ∧
        (∀ p ∈ (s.path module).toText, ¬ p.IsBarred) ∧
        (s.encodingOf module).encode text = .ok bytes ∧
        s.disk.place (s.path module) = .ok p ∧
        s'.disk.status (s.path module) = .ok (p, .file ⟨bytes.toArray⟩ mode) ∧
        (match s.disk.node? p with
          | none => mode = 0o600
          | some old => old.isDirectory = false ∧ mode = old.mode) ∧
        Disk.AgreesBut p s.disk s'.disk ∧ s'.encodings = s.encodings ∧ s'.root = s.root := by
  obtain ⟨fault, _, hw⟩ | ⟨bytes, henc, ⟨fault, hr, hw⟩ | ⟨p, mode, hname, hp, hdir, hmode, hw⟩⟩ :=
    writeWithin_cases s room module text
  · exact .inl ⟨_, hw⟩
  · cases fault with
    | refused fault => exact .inl ⟨_, hw⟩
    | flawed flaw =>
      have hflaw := Disk.flaw?_ne_none_of_replaceWithin hr
      rw [FilePath.flaw?, Ne, LooseText.pathFlaw?_eq_none_iff] at hflaw
      push Not at hflaw
      exact .inr (.inl ⟨flaw, hw, hflaw⟩)
  · have hagree := Disk.agreesBut_set s.disk p (.file ⟨bytes.toArray⟩ mode)
    refine .inr (.inr ⟨_, _, bytes, p, mode, hw, LooseText.pathFlaw?_eq_none_iff.mp hname, henc, hp,
      Disk.status_set_file hp hdir, ?_, hagree, rfl, rfl⟩)
    cases hn : s.disk.node? p with
    | none => simpa [hn] using hmode
    | some old =>
      cases old with
      | file b m => simpa [hn, Node.isDirectory] using hmode
      | directory m => exact absurd hn (hdir m)

/-- The file of a module that was read keeps its mode and gets the new bytes. -/
theorem write_atomic_readLatin1 :
    ∃ written s', readLatin1.write "m.s" "\u00c3\u00a9\n" = (.ok written, s') ∧
      s'.disk.status (readLatin1.path "m.s") =
        .ok (["m.s"], .file ⟨#[0xC3, 0xA9, 0x0A]⟩ 0o664) ∧
      Disk.AgreesBut ["m.s"] readLatin1.disk s'.disk := by
  rcases write_atomic readLatin1 none "m.s" "\u00c3\u00a9\n" with
    ⟨fault, hw⟩ | ⟨flaw, hw, _⟩ | ⟨written, s', bytes, p, mode, hw, _, _, _, hs, _, hagree, _⟩
  · rw [← write, write_readLatin1] at hw
    cases hw
  · rw [← write, write_readLatin1] at hw
    cases hw
  · rw [← write, write_readLatin1] at hw
    obtain rfl := (Prod.mk.inj hw).2
    obtain ⟨⟨⟩, ⟨⟩⟩ := status_readLatin1.symm.trans hs
    exact ⟨_, _, write_readLatin1, status_readLatin1, hagree⟩

/-- A path without a null character can have another flaw. -/
theorem not_write_atomic :
    ¬ ∀ (s : Store) (module text : LooseText), .char (Char.ofNat 0) ∉ (s.path module).toText →
      (∃ fault, (s.write module text).1 = .error (.moduleAccess fault)) ∨
        ∃ written, (s.write module text).1 = .ok written := by
  intro hall
  let module : LooseText := .char '/' :: .surrogate 0 :: (".s" : Text)
  have hbad : ∃ flaw, (Store.write ⟨Disk.empty, ⟨.root, []⟩, []⟩ module "x").1 =
      .error (.badPath flaw) := ⟨.unencodable ⟨.unicode, .surrogate 0, 2, 3⟩, by decide +kernel⟩
  obtain ⟨flaw, hbad⟩ := hbad
  rcases hall ⟨Disk.empty, ⟨.root, []⟩, []⟩ module "x" (by decide) with ⟨_, h⟩ | ⟨_, h⟩ <;>
    rw [hbad] at h <;> cases h

end Store

end AsmListing
