import AsmListing.CommandLine.Command
import Mathlib.Data.List.Infix

/-! Arguments that have been read. Nothing in them is made up: an operand is one of the texts that
were given, and the value of an option is the end of one. So is what an edit of the settings adds. -/
namespace AsmListing

theorem of_map_eq_ok {ε α β : Type} {f : α → β} {x : Except ε α} {b : β} (h : x.map f = .ok b) :
    ∃ a, x = .ok a ∧ b = f a := by
  cases x with
  | error e => cases h
  | ok a => exact ⟨a, rfl, (Except.ok.inj h).symm⟩

namespace Arguments

variable {table : OptionTable} {given more operands rest : List LooseText}
  {argument name v t : LooseText} {a : Arguments} {options : List (LooseText × Option LooseText)}

/-- The operands are given texts, and the values stand at the end of such. -/
structure IsTakenFrom (given : List LooseText) (a : Arguments) : Prop where
  operands : a.operands ⊆ given
  values : ∀ name v, (name, some v) ∈ a.options → ∃ argument ∈ given, v <:+ argument

theorem isTakenFrom_empty (given : List LooseText) : empty.IsTakenFrom given :=
  ⟨List.nil_subset _, by nofun⟩

theorem IsTakenFrom.mono (h : a.IsTakenFrom given) (hsub : given ⊆ more) : a.IsTakenFrom more where
  operands := List.Subset.trans h.operands hsub
  values name v hmem :=
    have ⟨argument, hargument, hsuffix⟩ := h.values name v hmem
    ⟨argument, hsub hargument, hsuffix⟩

theorem IsTakenFrom.addOptions (h : a.IsTakenFrom given)
    (hoptions : ∀ name v, (name, some v) ∈ options → ∃ argument ∈ given, v <:+ argument) :
    (a.addOptions options).IsTakenFrom given :=
  ⟨h.operands, fun name v hmem => (List.mem_append.mp hmem).elim (hoptions name v) (h.values name v)⟩

theorem IsTakenFrom.addOperands (h : a.IsTakenFrom given) (hsub : operands ⊆ given) :
    (a.addOperands operands).IsTakenFrom given :=
  ⟨List.append_subset.mpr ⟨hsub, h.operands⟩, h.values⟩

/-- The options that letters stand for have no values. -/
theorem snd_of_cluster (h : cluster table t = .ok options) : ∀ o ∈ options, o.2 = none := by
  induction t generalizing options with
  | nil =>
    obtain rfl := Except.ok.inj h
    nofun
  | cons letter t ih =>
    rw [cluster] at h
    split at h
    · obtain ⟨rest, hrest, rfl⟩ := of_map_eq_ok h
      exact List.forall_mem_cons.mpr ⟨rfl, ih hrest⟩
    · cases h

/-- The value of an option is what stands behind the equals sign of its argument. -/
theorem suffix_of_demand (h : demand table argument = .ok (.given options))
    (hmem : (name, some v) ∈ options) : v <:+ argument := by
  unfold demand at h
  dsimp only at h
  split at h
  · next w _ hw =>
    obtain rfl : _ = options := Demand.given.inj (Except.ok.inj h)
    obtain ⟨_, rfl⟩ : name = _ ∧ v = w := by simpa using hmem
    split at hw
    · next sign value hdrop =>
      obtain rfl := Option.some.inj hw
      exact (hdrop ▸ List.suffix_cons sign value).trans (List.drop_suffix _ _)
    · cases hw
  · cases h
  · cases h
  · obtain rfl : _ = options := Demand.given.inj (Except.ok.inj h)
    simp at hmem
  · split at h
    · cases h
    · obtain ⟨letters, hletters, heq⟩ := of_map_eq_ok h
      obtain rfl := Demand.given.inj heq
      cases snd_of_cluster hletters _ hmem

theorem isTakenFrom_of_parse (h : parse table given = .ok a) : a.IsTakenFrom given := by
  fun_induction parse table given generalizing a with
  | case1 =>
    obtain rfl := Except.ok.inj h
    exact isTakenFrom_empty []
  | case2 rest =>
    obtain rfl := Except.ok.inj h
    exact (isTakenFrom_empty _).addOperands (List.subset_cons_self _ _)
  | case3 => cases h
  | case4 argument rest _ _ options hdemand ih =>
    obtain ⟨b, hrest, rfl⟩ := of_map_eq_ok h
    refine ((ih hrest).mono (List.subset_cons_self _ _)).addOptions fun name v hmem => ?_
    exact ⟨argument, List.mem_cons_self, suffix_of_demand hdemand hmem⟩
  | case5 => cases h
  | case6 argument _ _ name _ v rest ih =>
    obtain ⟨b, hrest, rfl⟩ := of_map_eq_ok h
    have hsub : rest ⊆ argument :: v :: rest := fun _ hmem =>
      List.mem_cons_of_mem _ (List.mem_cons_of_mem _ hmem)
    refine ((ih hrest).mono hsub).addOptions fun name w hmem => ?_
    obtain ⟨_, rfl⟩ : _ = _ ∧ w = v := by simpa using hmem
    exact ⟨w, by simp, List.suffix_rfl⟩
  | case7 argument rest _ _ _ ih =>
    obtain ⟨b, hrest, rfl⟩ := of_map_eq_ok h
    exact ((ih hrest).mono (List.subset_cons_self _ _)).addOperands (by simp)
  | case8 argument rest =>
    obtain rfl := Except.ok.inj h
    exact (isTakenFrom_empty _).addOperands (List.Subset.refl _)

theorem mem_of_value? (h : a.value? name = some v) : (name, some v) ∈ a.options := by
  obtain ⟨⟨key, value⟩, hlast, rfl⟩ := Option.bind_eq_some_iff.mp h
  obtain ⟨hmem, hkey⟩ := List.mem_filter.mp (List.mem_of_getLast? hlast)
  obtain rfl : key = name := by simpa using hkey
  exact hmem

end Arguments

/-- What the edit adds stands at the end of texts that were given. -/
def SettingsEdit.IsOf (given : List LooseText) (e : SettingsEdit) : Prop :=
  ∀ t, e.addExtension = some t ∨ e.addExclude = some t → ∃ argument ∈ given, t <:+ argument

theorem SettingsEdit.IsOf.mono {given more : List LooseText} {e : SettingsEdit} (h : e.IsOf given)
    (hsub : given ⊆ more) : e.IsOf more := fun t ht =>
  have ⟨argument, hmem, hsuffix⟩ := h t ht
  ⟨argument, hsub hmem, hsuffix⟩

variable {given : List LooseText} {options : GlobalOptions} {edit : SettingsEdit} {display : Bool}

theorem CommandForm.isOf_of_parse {form : CommandForm} (hform : form ∈ all)
    (h : form.parse given = .ok (.config edit display)) : edit.IsOf given := by
  unfold parse at h
  split at h
  · cases h
  · next a ha =>
    have hvalues := (Arguments.isTakenFrom_of_parse ha).values
    split at h
    · cases h
    · split at h
      · cases h
      · simp only [all, List.mem_cons, List.not_mem_nil, or_false] at hform
        -- only one form makes an edit of the settings
        rcases hform with rfl | rfl | rfl | rfl | rfl | rfl
        case inr.inr.inr.inr.inr =>
          obtain ⟨rfl, _⟩ := Command.config.inj (Except.ok.inj h)
          rintro t (ht | ht)
          · exact hvalues _ _ (Arguments.mem_of_value? ht)
          · exact hvalues _ _ (Arguments.mem_of_value? ht)
        all_goals cases h

namespace Call

variable {check : LooseText → Except Stop Unit} {call : Call}

theorem rest_subset_of_parse (h : parse check given = .ok call) : call.rest ⊆ given := by
  unfold parse at h
  split at h
  · cases h
  · next a ha =>
    split at h
    · cases h
    · dsimp only at h
      split at h
      · cases h
      · obtain rfl := Except.ok.inj h
        exact (Arguments.isTakenFrom_of_parse ha).operands

/-- What an edit adds stands at the end of arguments of the program. -/
theorem isOf_of_resolve (h : resolve check given = .ok (options, .config edit display)) :
    edit.IsOf given := by
  unfold resolve at h
  split at h
  · cases h
  · split at h
    · cases h
    · next call hcall =>
      split at h
      · cases h
      · next name rest hrest =>
        split at h
        · next form hform =>
          obtain ⟨command, hparse, heq⟩ := of_map_eq_ok h
          obtain ⟨_, rfl⟩ := Prod.mk.inj heq
          have hmem : form ∈ CommandForm.all := List.mem_of_find?_eq_some hform
          have hsub : name :: rest ⊆ given := hrest ▸ rest_subset_of_parse hcall
          exact (CommandForm.isOf_of_parse hmem hparse).mono fun _ h =>
            hsub (List.mem_cons_of_mem _ h)
        · split at h <;> cases h

end Call

end AsmListing
