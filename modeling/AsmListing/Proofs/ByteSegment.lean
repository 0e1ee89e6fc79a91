import AsmListing.Proofs.FailedRemoval
import AsmListing.Proofs.StoredText

/-! What a removal takes out of the bytes of a file. An encoding writes a text piece by piece, so
that what is cut out of the text is cut out of the bytes; and what is left has no new characters,
so that it always has bytes. -/
namespace AsmListing

namespace Encoding

variable {e : Encoding} {t u : Text} {bytes : Bytes}

/-- What stands in front of every text. -/
def mark : Encoding → Bytes
  | .utf8Marked => byteOrderMark
  | _ => []

/-- The bytes of the characters of a text that the encoding has bytes for. -/
def body : Encoding → Text → Bytes
  | .latin1, t => t.map fun c => UInt8.ofNat c.toNat
  | _, t => Utf8.encode t

@[simp] theorem body_append (e : Encoding) (t u : Text) :
    e.body (t ++ u) = e.body t ++ e.body u := by
  cases e with
  | latin1 => exact List.map_append
  | _ => exact List.flatMap_append

theorem eq_of_encode (h : e.encode t = .ok bytes) : bytes = e.mark ++ e.body t := by
  cases e with
  | latin1 =>
    rw [(Latin1.encode_eq_ok_iff.mp h).2]
    simp [Text.loose, Function.comp_def, CodePoint.value, mark, body]
  | _ => exact (Except.ok.inj ((encodeUnicode_loose _ t).symm.trans h)).symm

end Encoding

/-- A file that was read can be written, if a temporary file can be made beside it. -/
theorem Store.write_of_createTemporary {s : Store} {module text : LooseText} {p : Place}
    {old : ByteArray} {mode : Nat} {bytes : Bytes} {fresh : FilePath × Disk}
    (hname : (s.path module).flaw? = none)
    (hs : s.disk.status (s.path module) = .ok (p, .file old mode))
    (henc : (s.encodingOf module).encode text = .ok bytes)
    (hroom : s.disk.createTemporary (s.path module) = .ok fresh) :
    s.write module text = (.ok ⟨s.path module, bytes.length, s.encodingOf module⟩,
      { s with disk := s.disk.set p (.file ⟨bytes.toArray⟩ mode) }) := by
  simp [write, writeWithin, henc, Disk.replace_of_createTemporary hname hs hroom]

namespace Workspace

open Listing

variable {w w' : Workspace} {module : LooseText} {name t : Text} {collapse buffers : Bool}
  {removal : Removal}
  {enc : Encoding} {old : ByteArray} {s e : Nat}

theorem planRemoval_eq (hname : (w.store.path module).flaw? = none)
    (hread : w.store.disk.read (w.store.path module) = .ok old)
    (hd : Encoding.detect old.data.toList = (t, enc))
    (hplan : Removal.plan? collapse t name = some removal) :
    w.planRemoval module name collapse =
      (.ok removal, ⟨w.store.remember (w.store.path module) enc, w.buffers⟩) := by
  simp [planRemoval, Store.read_eq hname hread, hd, hplan]

theorem removeRoutine_eq (mode : RemovalMode)
    (h : w.planRemoval module name mode.collapse = (.ok removal, w')) :
    w.removeRoutine module name mode = if mode.dryRun then (.ok ⟨removal, none, none⟩, w')
      else w'.carryOut module removal mode.buffers := by
  simp [removeRoutine, h]

/-- Without a dirty buffer there is one write only. -/
theorem carryOut_of_clean (h : w.buffers.isDirty module = false) (removal : Removal)
    (buffers : Bool) :
    w.carryOut module removal buffers =
      ((w.store.write module removal.text).1.map fun written => ⟨removal, some written, none⟩,
        { w with store := (w.store.write module removal.text).2 }) := by
  rcases hw : w.store.write module removal.text with ⟨_ | written, store⟩
  · simp [carryOut, hw, Except.map]
  · simp [carryOut, hw, h, Except.map]

/-- A removal without a dirty buffer does not fail for want of bytes where its text has them. -/
theorem not_isUnencodable_of_carryOut {bytes : Bytes} {failure : Failure}
    (hclean : w.buffers.isDirty module = false)
    (henc : (w.store.encodingOf module).encode removal.text = .ok bytes)
    (h : w.carryOut module removal buffers = (.error failure, w')) :
    ¬ failure.IsUnencodable module := by
  rw [carryOut_of_clean hclean] at h
  rcases hw : w.store.write module removal.text with ⟨fault | written, store⟩
  · rw [hw] at h
    obtain rfl := Except.error.inj (Prod.mk.inj h).1
    exact (Store.of_write_error hw).2.1 ⟨bytes, henc⟩
  · rw [hw] at h
    cases (Prod.mk.inj h).1

/-- A cut of the text is a cut of its bytes, behind the mark if there is one. -/
theorem exists_segment {bytes : Bytes} (hd : Encoding.detect old.data.toList = (t, enc))
    (hplan : Removal.plan? false t name = some removal)
    (henc : enc.encode removal.text = .ok bytes) :
    ∃ before behind, old.data.toList = before ++ (enc.body removal.code ++ behind) ∧
      bytes = before ++ behind ∧ enc.mark <+: before := by
  obtain ⟨before, behind, htext, _, hleft⟩ := Removal.exists_of_plan? hplan
  simp only [Bool.false_eq_true, if_false] at hleft
  have hold := Encoding.eq_of_encode (Encoding.encode_of_detect hd)
  have hnew := Encoding.eq_of_encode henc
  refine ⟨enc.mark ++ enc.body before, enc.body behind, ?_, ?_, List.prefix_append ..⟩
  · rw [hold, htext, Encoding.body_append, Encoding.body_append, List.append_assoc]
  · rw [hnew, hleft, Encoding.body_append, List.append_assoc]

/-- The removal of a routine that is found in a file, where no dirty buffer is saved behind it. A
dry run reports the same lines, code and text and changes nothing. The removal itself never fails
for want of bytes, and it does not fail at all where a temporary file can be made. If nothing is
collapsed, one segment is missing in the new bytes, the code in the encoding of the file, and the
mark in front of UTF-8 stays. -/
theorem removal_cuts_segment (hname : (w.store.path module).flaw? = none)
    (hread : w.store.disk.read (w.store.path module) = .ok old)
    (hd : Encoding.detect old.data.toList = (t, enc))
    (hspan : (ofText t).span? name = some ⟨s, e⟩) (hclean : w.buffers.isDirty module = false) :
    ∀ collapse buffers, ∃ removal dry,
      w.removeRoutine module name ⟨true, collapse, buffers⟩ = (.ok ⟨removal, none, none⟩, dry) ∧
      dry.store.disk = w.store.disk ∧
      removal.name = name ∧ removal.span = ⟨s, e⟩ ∧ removal.code = (ofText t).block s e ∧
      (∀ failure w', w.removeRoutine module name ⟨false, collapse, buffers⟩ = (.error failure, w') →
        ¬ failure.IsUnencodable module) ∧
      ∀ fresh, w.store.disk.createTemporary (w.store.path module) = .ok fresh →
        ∃ written w' p mode bytes,
          w.removeRoutine module name ⟨false, collapse, buffers⟩ =
            (.ok ⟨removal, some written, none⟩, w') ∧
          w.store.disk.status (w.store.path module) = .ok (p, .file old mode) ∧
          enc.encode removal.text = .ok bytes ∧
          w'.store.disk = w.store.disk.set p (.file ⟨bytes.toArray⟩ mode) ∧
          (collapse = false → ∃ before behind,
            old.data.toList = before ++ (enc.body removal.code ++ behind) ∧
            bytes = before ++ behind ∧
            (Utf8.IsUtf8 old.data.toList → byteOrderMark <+: old.data.toList →
              byteOrderMark <+: before)) := by
  intro collapse buffers
  obtain ⟨removal, hplan, hsame, hlines, hcode⟩ : ∃ removal,
      Removal.plan? collapse t name = some removal ∧ removal.name = name ∧
      removal.span = ⟨s, e⟩ ∧ removal.code = (ofText t).block s e :=
    ⟨_, Removal.plan?_eq hspan collapse, rfl, rfl, rfl⟩
  have hplanned := planRemoval_eq hname hread hd hplan
  obtain ⟨p, mode, hstatus⟩ := Disk.of_read hread
  have hkept : ∀ c ∈ removal.text, c ∈ t := fun _ hc => Removal.mem_of_mem_text hplan hc
  obtain ⟨bytes, hbytes⟩ := Encoding.exists_encode_of_detect hd hkept
  -- once the module has been read, its encoding is the one that was found
  let read : Workspace := ⟨w.store.remember (w.store.path module) enc, w.buffers⟩
  have henc : read.store.encodingOf module = enc := w.store.encodingOf_remember module enc
  have hfound : (read.store.encodingOf module).encode removal.text = .ok bytes := by
    rw [henc, hbytes]
  have hdry := removeRoutine_eq ⟨true, collapse, buffers⟩ hplanned
  have hdone := removeRoutine_eq ⟨false, collapse, buffers⟩ hplanned
  refine ⟨removal, read, hdry, rfl, hsame, hlines, hcode, fun failure w' hfail => ?_,
    fun fresh hroom => ?_⟩
  · exact not_isUnencodable_of_carryOut (w := read) hclean hfound (hdone.symm.trans hfail)
  · have hwrite := Store.write_of_createTemporary (s := read.store) hname hstatus hfound hroom
    have hcarry := carryOut_of_clean (w := read) hclean removal buffers
    rw [hwrite] at hcarry
    refine ⟨_, _, p, mode, bytes, hdone.trans hcarry, hstatus, hbytes, rfl, ?_⟩
    rintro rfl
    obtain ⟨before, behind, hold, hnew, hmark⟩ := exists_segment hd hplan hbytes
    refine ⟨before, behind, hold, hnew, fun hutf hbom => ?_⟩
    rwa [(Encoding.encoding_of_detect hd).1.mpr ⟨hbom, hutf⟩] at hmark

/-- A module in UTF-8 with a mark in front, and with a character of two bytes. -/
def markedModule : Workspace :=
  let bytes := byteOrderMark ++ Utf8.encode "glabel f\n.size f, .-f\n# \u00e9\n"
  fresh { entries := [(["m.s"], .file ⟨bytes.toArray⟩ 0o644)] } ⟨.root, []⟩

/-- The lines of the routine are cut out behind the mark. -/
theorem removal_cuts_segment_of_markedModule :
    ∃ removal written w' before behind,
      markedModule.removeRoutine "m.s" "f" ⟨false, false, true⟩ =
        (.ok ⟨removal, some written, none⟩, w') ∧
      removal.code = "glabel f\n.size f, .-f".toList ∧ byteOrderMark <+: before ∧
      w'.store.disk.node? ["m.s"] = some (.file ⟨(before ++ behind).toArray⟩ 0o644) := by
  have hd : Encoding.detect (byteOrderMark ++ Utf8.encode "glabel f\n.size f, .-f\n# \u00e9\n") =
      ("glabel f\n.size f, .-f\n# \u00e9\n".toList, .utf8Marked) := by decide +kernel
  have hspan : (ofText "glabel f\n.size f, .-f\n# \u00e9\n").span? "f" = some ⟨0, 1⟩ := by
    decide +kernel
  obtain ⟨fresh, hroom⟩ : ∃ fresh, markedModule.store.disk.createTemporary
      (markedModule.store.path "m.s") = .ok fresh := ⟨_, rfl⟩
  have hname : (markedModule.store.path "m.s").flaw? = none := by decide +kernel
  have hstatus : markedModule.store.disk.status (markedModule.store.path "m.s") = .ok (["m.s"],
      .file ⟨(byteOrderMark ++ Utf8.encode "glabel f\n.size f, .-f\n# \u00e9\n").toArray⟩ 0o644) :=
    rfl
  obtain ⟨hmark, hutf⟩ := (Encoding.encoding_of_detect hd).1.mp rfl
  obtain ⟨removal, _, _, _, _, _, hcode, _, hdone⟩ :=
    removal_cuts_segment hname rfl hd hspan rfl false true
  obtain ⟨written, w', p, mode, bytes, hrun, hs, _, hdisk, hcut⟩ := hdone fresh hroom
  obtain ⟨before, behind, _, rfl, hkept⟩ := hcut rfl
  obtain ⟨⟩ := hstatus.symm.trans hs
  exact ⟨removal, written, w', before, behind, hrun, hcode.trans (by decide +kernel),
    hkept hutf hmark, by rw [hdisk, Disk.node?_set_self]⟩

end Workspace

end AsmListing
