import AsmListing.Listing.Catalog

/-! The chapters of a listing: its declarations cut it into stretches, each of which has one
routine. The pass over the markers closes exactly these routines. -/
namespace AsmListing

/-- The lines from one declaration up to the next one. -/
structure Chapter where
  name : Text
  head : Line
  body : List Line
  deriving DecidableEq, Repr

variable {ls rest before behind : Listing} {l : Line} {name : Text}

namespace Chapter

/-- Puts a line in front of a listing that is cut into the lines before its first declaration and
its chapters. -/
def prepend (l : Line) (cut : List Line × List Chapter) : List Line × List Chapter :=
  match Marker.ofLine l.content with
  | .start name => ([], ⟨name, l, cut.1⟩ :: cut.2)
  | _ => (l :: cut.1, cut.2)

/-- The lines before the first declaration, and the chapters. -/
def cut (ls : Listing) : List Line × List Chapter := ls.foldr prepend ([], [])

/-- How many lines of `body` belong to the routine `name` that is declared in front of it. -/
def extentIn (name : Text) (body : List Line) : Nat :=
  match body.findIdx? fun l => Marker.ofLine l.content == .size name with
  | some k => k + 1
  | none => body.length

/-- How many lines behind the declaration belong to the routine. -/
def extent (ch : Chapter) : Nat := extentIn ch.name ch.body

/-- The lines of the routine. -/
def lines (ch : Chapter) : List Line := ch.head :: ch.body.take ch.extent

/-- The routine of a chapter whose declaration stands on line `start`. -/
def routine (start : Nat) (ch : Chapter) : Routine :=
  ⟨ch.name, ⟨start, start + ch.extent⟩, Listing.excerpt ch.lines⟩

/-- The routines of consecutive chapters, of which the first begins on line `start`. -/
def routines (start : Nat) : List Chapter → List Routine
  | [] => []
  | ch :: rest => ch.routine start :: routines (start + 1 + ch.body.length) rest

theorem cut_cons_of_start (h : Marker.ofLine l.content = .start name) (ls : Listing) :
    cut (l :: ls) = ([], ⟨name, l, (cut ls).1⟩ :: (cut ls).2) := by
  simp [cut, prepend, h]

theorem cut_cons_of_not_start (h : ∀ f, Marker.ofLine l.content ≠ .start f) (ls : Listing) :
    cut (l :: ls) = (l :: (cut ls).1, (cut ls).2) := by
  simp only [cut, List.foldr_cons, prepend]

theorem cut_append (h : ∀ l ∈ ls, ∀ f, Marker.ofLine l.content ≠ .start f) (ms : Listing) :
    cut (ls ++ ms) = (ls ++ (cut ms).1, (cut ms).2) := by
  induction ls with
  | nil => rfl
  | cons l ls ih =>
    rw [List.forall_mem_cons] at h
    rw [List.cons_append, cut_cons_of_not_start h.1, ih h.2, List.cons_append]

/-- Nothing is lost in the cut but the borders. -/
theorem exists_eq_cut_append (ls : Listing) : ∃ behind, ls = (cut ls).1 ++ behind := by
  induction ls with
  | nil => exact ⟨[], rfl⟩
  | cons l ls ih =>
    by_cases hs : ∃ f, Marker.ofLine l.content = .start f
    · obtain ⟨f, hf⟩ := hs
      exact ⟨l :: ls, by rw [cut_cons_of_start hf]; rfl⟩
    · obtain ⟨behind, heq⟩ := ih
      refine ⟨behind, ?_⟩
      rw [cut_cons_of_not_start (not_exists.mp hs), List.cons_append, ← heq]

theorem extentIn_le (name : Text) (body : List Line) : extentIn name body ≤ body.length := by
  unfold extentIn
  split
  · next k hk => exact (List.findIdx?_eq_some_iff_getElem.mp hk).1
  · exact Nat.le_refl _

theorem extentIn_cons_of_size (h : Marker.ofLine l.content = .size name) (body : List Line) :
    extentIn name (l :: body) = 1 := by
  simp [extentIn, List.findIdx?_cons, h]

theorem extentIn_cons_of_ne (h : Marker.ofLine l.content ≠ .size name) (body : List Line) :
    extentIn name (l :: body) = extentIn name body + 1 := by
  rw [extentIn, extentIn, List.findIdx?_cons, if_neg (by simpa using h)]
  cases body.findIdx? fun l => Marker.ofLine l.content == .size name <;> simp

theorem extent_le (ch : Chapter) : ch.extent ≤ ch.body.length := extentIn_le ..

/-- The lines of the routine are those of the listing from its declaration on. -/
theorem drop_take_eq (ch : Chapter) (h : ls = before ++ (ch.head :: ch.body ++ behind)) :
    (ls.take (before.length + ch.extent + 1)).drop before.length = ch.lines := by
  have hdrop : ls.drop before.length = ch.head :: (ch.body ++ behind) := by
    rw [h, List.drop_left]
    rfl
  rw [List.drop_take, hdrop, Nat.add_assoc, Nat.add_sub_cancel_left, List.take_succ_cons,
    List.take_append_of_le_length ch.extent_le]
  rfl

end Chapter

namespace CatalogPass

variable {p : CatalogPass} {i : Nat}

/-- What becomes of the open routine when `body` stands between line `i` and the next
declaration. -/
def pending (ls : Listing) (p : CatalogPass) (i : Nat) (body : List Line) : List Routine :=
  match p.current with
  | none => []
  | some (name, first) =>
    let last := i + Chapter.extentIn name body - 1
    [⟨name, ⟨first, last⟩, ls.block first last⟩]

/-- The routines that come of a pass which has gone up to line `i`, where `rest` begins: those it
has closed, the open one, and those of the chapters in `rest`. -/
def outlook (ls : Listing) (p : CatalogPass) (i : Nat) (rest : Listing) : List Routine :=
  let (body, chapters) := Chapter.cut rest
  p.closed ++ p.pending ls i body ++ Chapter.routines (i + body.length) chapters

theorem close_eq (ls : Listing) (p : CatalogPass) (i : Nat) :
    p.close ls (i - 1) = p.closed ++ p.pending ls i [] := by
  rcases p with ⟨closed, _ | ⟨name, first⟩⟩ <;> simp [close, pending, Chapter.extentIn]

/-- A declaration closes the open routine in front of it and opens its own, which comes to be that
of the new chapter. -/
theorem outlook_cons_of_start (hls : ls = before ++ l :: rest)
    (hl : Marker.ofLine l.content = .start name) :
    p.outlook ls before.length (l :: rest) =
      (p.step ls (.start name) before.length).outlook ls (before.length + 1) rest := by
  obtain ⟨behind, hrest⟩ := Chapter.exists_eq_cut_append rest
  have heq : ls = before ++ (l :: (Chapter.cut rest).1 ++ behind) := by
    rw [hls, List.cons_append, ← hrest]
  have hcode : ls.block before.length (before.length + Chapter.extentIn name (Chapter.cut rest).1) =
      Listing.excerpt (Chapter.lines ⟨name, l, (Chapter.cut rest).1⟩) :=
    congrArg Listing.excerpt (Chapter.drop_take_eq ⟨name, l, (Chapter.cut rest).1⟩ heq)
  have hlast : before.length + 1 + Chapter.extentIn name (Chapter.cut rest).1 - 1 =
      before.length + Chapter.extentIn name (Chapter.cut rest).1 := by omega
  simp only [outlook, Chapter.cut_cons_of_start hl, step, close_eq, pending, Chapter.routines,
    Chapter.routine, Chapter.extent, hlast, hcode, List.length_nil, Nat.add_zero, List.append_assoc,
    List.cons_append, List.nil_append]

/-- The size of the open routine closes it on its own line. -/
theorem outlook_cons_of_size {first : Nat} (hp : p.current = some (name, first))
    (hl : Marker.ofLine l.content = .size name) :
    p.outlook ls i (l :: rest) = (p.step ls (.size name) i).outlook ls (i + 1) rest := by
  have hstart : ∀ f, Marker.ofLine l.content ≠ .start f := by simp [hl]
  have hlen : i + ((Chapter.cut rest).1.length + 1) = i + 1 + (Chapter.cut rest).1.length := by
    omega
  simp [outlook, Chapter.cut_cons_of_not_start hstart, step, hp, close, pending,
    Chapter.extentIn_cons_of_size hl, hlen]

/-- Any other line lies in the open routine, or in front of all of them. -/
theorem outlook_cons_of_other (hstart : ∀ f, Marker.ofLine l.content ≠ .start f)
    (hsize : ∀ first name, p.current = some (name, first) →
      Marker.ofLine l.content ≠ .size name) :
    p.outlook ls i (l :: rest) = p.outlook ls (i + 1) rest := by
  have hlen : i + ((Chapter.cut rest).1.length + 1) = i + 1 + (Chapter.cut rest).1.length := by
    omega
  rcases p with ⟨closed, _ | ⟨name, first⟩⟩
  · simp [outlook, Chapter.cut_cons_of_not_start hstart, pending, hlen]
  · have hext := Chapter.extentIn_cons_of_ne (hsize first name rfl) (Chapter.cut rest).1
    have hlast : i + (Chapter.extentIn name (Chapter.cut rest).1 + 1) - 1 =
        i + 1 + Chapter.extentIn name (Chapter.cut rest).1 - 1 := by omega
    simp [outlook, Chapter.cut_cons_of_not_start hstart, pending, hext, hlen, hlast]

/-- The step lemma of the pass: no line changes what comes of it in the end. -/
theorem outlook_step (hls : ls = before ++ l :: rest) :
    p.outlook ls before.length (l :: rest) =
      (p.step ls (Marker.ofLine l.content) before.length).outlook ls (before.length + 1) rest := by
  cases hm : Marker.ofLine l.content with
  | start name => exact outlook_cons_of_start hls hm
  | size name =>
    have hstart : ∀ f, Marker.ofLine l.content ≠ .start f := by simp [hm]
    cases hp : p.current with
    | none =>
      have hstep : p.step ls (.size name) before.length = p := by simp [step, hp]
      rw [hstep]
      exact outlook_cons_of_other hstart (by simp [hp])
    | some current =>
      by_cases hname : name = current.1
      · subst hname
        exact outlook_cons_of_size hp hm
      · have hstep : p.step ls (.size name) before.length = p := by simp [step, hp, hname]
        rw [hstep]
        refine outlook_cons_of_other hstart fun first other hother => ?_
        obtain rfl : current = (other, first) := by simpa [hp] using hother
        simpa [hm] using hname
  | _ => exact outlook_cons_of_other (by simp [hm]) (by simp [hm])

/-- The run lemma of the pass. -/
theorem outlook_run (hls : ls = before ++ rest) :
    p.outlook ls before.length rest =
      (p.run ls before.length rest.markers).close ls (ls.length - 1) := by
  induction rest generalizing p before with
  | nil =>
    obtain rfl : ls = before := by simpa using hls
    simp [outlook, Chapter.cut, Chapter.routines, run, Listing.markers, close_eq]
  | cons l rest ih =>
    have hnext : ls = (before ++ [l]) ++ rest := by simpa using hls
    rw [outlook_step hls]
    simpa [run, Listing.markers, List.zipIdx_cons] using
      ih (p := p.step ls (Marker.ofLine l.content) before.length) hnext

end CatalogPass

/-- The routines that the pass closes are those of the chapters. -/
theorem Listing.routines_eq (ls : Listing) :
    ls.routines = Chapter.routines (Chapter.cut ls).1.length (Chapter.cut ls).2 := by
  have hrun : CatalogPass.start.outlook ls ([] : Listing).length ls = _ :=
    CatalogPass.outlook_run rfl
  simpa [routines, CatalogPass.outlook, CatalogPass.start, CatalogPass.pending] using hrun.symm

end AsmListing
