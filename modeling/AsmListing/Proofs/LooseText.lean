import AsmListing.Codec.Encoding
import AsmListing.Proofs.TextOrder
import Mathlib.Data.List.TakeWhile

/-! Texts with surrogates: which of them are made of characters, where the first run without bytes
is, and their order by code points. -/
namespace AsmListing

namespace CodePoint

theorem isChar_iff {p : CodePoint} : p.isChar = true ↔ ∃ c, p = .char c := by
  cases p <;> simp [isChar, char?]

theorem value_injective : Function.Injective value := by
  rintro (a | i) (b | j) h <;> simp only [value] at h
  · rw [Char.toNat_inj.mp h]
  · rcases a.valid with ha | ha <;> (simp only [Char.toNat] at h; omega)
  · rcases b.valid with hb | hb <;> (simp only [Char.toNat] at h; omega)
  · rw [Fin.ext (by omega : i.val = j.val)]

/-- Code points are ordered as their numbers are. -/
instance : LinearOrder CodePoint where
  le_refl a := Nat.le_refl a.value
  le_trans a b c := @Nat.le_trans a.value b.value c.value
  le_antisymm _ _ h h' := value_injective (Nat.le_antisymm h h')
  le_total a b := Nat.le_total a.value b.value
  lt_iff_le_not_ge a b := Nat.lt_iff_le_and_not_ge
  toDecidableLE := inferInstance
  toDecidableEq := inferInstance
  toDecidableLT := inferInstance

end CodePoint

namespace Text

variable {t u : Text}

@[simp] theorem loose_nil : loose [] = [] := rfl

@[simp] theorem loose_cons (c : Char) (t : Text) : loose (c :: t) = .char c :: loose t := rfl

@[simp] theorem loose_append (t u : Text) : loose (t ++ u) = loose t ++ loose u := List.map_append

@[simp] theorem length_loose (t : Text) : (loose t).length = t.length := List.length_map ..

theorem loose_injective : Function.Injective loose :=
  List.map_injective_iff.mpr fun _ _ => CodePoint.char.inj

@[simp] theorem mem_loose {c : Char} : .char c ∈ loose t ↔ c ∈ t := by
  simp [loose]

theorem isChar_of_mem_loose {p : CodePoint} (h : p ∈ loose t) : p.isChar = true := by
  obtain ⟨c, _, rfl⟩ := List.mem_map.mp h
  rfl

/-- A surrogate stands in no text that was made of characters. -/
theorem not_mem_loose {p : CodePoint} (hp : p.isChar = false) (t : Text) : p ∉ t.loose := by
  intro h
  rw [isChar_of_mem_loose h] at hp
  cases hp

@[simp] theorem characters_loose (t : Text) : t.loose.characters = t := by
  simp [loose, LooseText.characters, List.filterMap_map, Function.comp_def, CodePoint.char?]

@[simp] theorem escaped_loose (t : Text) : t.loose.escaped = t := by
  simp [loose, LooseText.escaped, List.flatMap_map, CodePoint.escaped]

@[simp] theorem text?_loose (t : Text) : t.loose.text? = some t := by
  induction t with
  | nil => rfl
  | cons c t ih => simp_all [LooseText.text?, CodePoint.char?]

end Text

namespace LooseText

variable {t : LooseText} {charset : Charset} {fits ends : CodePoint → Bool} {fault : EncodeFault}

/-- A text without surrogates is made of its characters. -/
theorem loose_characters (h : ∀ p ∈ t, p.isChar = true) : t.characters.loose = t := by
  induction t with
  | nil => rfl
  | cons p t ih =>
    obtain ⟨hp, ht⟩ := List.forall_mem_cons.mp h
    obtain ⟨c, rfl⟩ := CodePoint.isChar_iff.mp hp
    have hcons : characters (.char c :: t) = c :: characters t := rfl
    rw [hcons, Text.loose_cons, ih ht]

theorem text?_eq_some_iff {u : Text} : t.text? = some u ↔ t = u.loose := by
  constructor
  · intro h
    induction t generalizing u with
    | nil => simp_all [text?]
    | cons p t ih =>
      cases p with
      | char c =>
        simp only [text?, List.mapM_cons, CodePoint.char?, Option.bind_eq_bind, Option.bind_some,
          Option.bind_eq_some_iff, Option.pure_def] at h
        obtain ⟨v, hv, hu⟩ := h
        rw [← Option.some.inj hu, Text.loose_cons, ← ih hv]
      | surrogate i => simp [text?, CodePoint.char?] at h
  · rintro rfl
    exact Text.text?_loose u

/-- There is no run without bytes where all code points have some. -/
theorem misfit?_eq_none_iff : t.misfit? charset fits ends = none ↔ ∀ p ∈ t, fits p = true := by
  unfold misfit?
  rw [← List.dropWhile_eq_nil_iff]
  split <;> simp_all

/-- The run without bytes begins with a code point of the text that has none. -/
theorem of_misfit? (h : t.misfit? charset fits ends = some fault) :
    fault.first ∈ t ∧ fits fault.first = false := by
  unfold misfit? at h
  split at h
  · cases h
  · next p rest hdrop =>
    obtain rfl := Option.some.inj h
    refine ⟨(List.dropWhile_suffix _).subset (hdrop ▸ List.mem_cons_self), ?_⟩
    have hhead := List.head?_dropWhile_not fits t
    simpa [hdrop] using hhead

theorem encodeFault?_eq_none_iff : t.encodeFault? = none ↔ ∀ p ∈ t, p.isChar = true :=
  misfit?_eq_none_iff

@[simp] theorem encodeFault?_loose (t : Text) : t.loose.encodeFault? = none :=
  encodeFault?_eq_none_iff.mpr fun _ => Text.isChar_of_mem_loose

theorem le_iff_not_lt {s t : LooseText} : le s t = true ↔ ¬ t < s :=
  lexLe_iff_not_lt fun _ _ => by rw [decide_eq_true_eq, not_lt]

theorem pairwise_sort (names : List LooseText) : (sort names).Pairwise (· ≤ ·) :=
  @pairwise_le_mergeSort LooseText LooseText id le _ (fun _ _ => le_iff_not_lt) names

theorem pairwise_sort_of_nodup {names : List LooseText} (h : names.Nodup) :
    (sort names).Pairwise (· < ·) :=
  pairwise_lt_mergeSort (fun _ _ => le_iff_not_lt) (by simpa using h)

end LooseText

end AsmListing
