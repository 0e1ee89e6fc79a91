import AsmListing.Disk.Search
import AsmListing.Proofs.Tree

/-! Walks through a tree of directories. A walk comes to the files behind directories that it enters
and can list, to each one once, however deep they stand. -/
namespace AsmListing

variable {d : Disk} {p q : Place} {name : LooseText} {parts : List LooseText} {n : Node}
  {depth : Nat}

namespace Disk

/-- An entry gives a child of the directory right above it. -/
theorem child_eq_some_iff {e : Place × Node} : (match e.1.getLast? with
      | some name => if e.1.dropLast = p then some (name, e.2) else none
      | none => none) = some (name, n) ↔ e = (p ++ [name], n) := by
  obtain ⟨q, m⟩ := e
  rcases List.eq_nil_or_concat q with rfl | ⟨front, last, rfl⟩
  · simp
  · simp [and_assoc, and_left_comm]

theorem mem_children_iff : (name, n) ∈ d.children p ↔ (p ++ [name], n) ∈ d.entries := by
  rw [children, List.mem_filterMap]
  constructor
  · rintro ⟨e, hmem, he⟩
    exact child_eq_some_iff.mp he ▸ hmem
  · intro hmem
    exact ⟨_, hmem, child_eq_some_iff.mpr rfl⟩

theorem WellFormed.mem_children (hd : d.WellFormed) :
    (name, n) ∈ d.children p ↔ d.node? (p ++ [name]) = some n := by
  rw [mem_children_iff]
  exact ⟨hd.node?_of_mem, mem_entries_of_node? (by simp)⟩

/-- No two entries of a directory have the same name. -/
theorem WellFormed.nodup_children (hd : d.WellFormed) (p : Place) :
    ((d.children p).map Prod.fst).Nodup := by
  have hunique := List.pairwise_map.mp hd.unique
  refine List.pairwise_map.mpr (List.pairwise_filterMap.mpr (hunique.imp fun {e e'} hne => ?_))
  rintro ⟨name, n⟩ h ⟨name', n'⟩ h' (heq : name = name')
  rw [child_eq_some_iff.mp h, child_eq_some_iff.mp h', heq] at hne
  exact hne rfl

theorem length_lt_depthBound (h : d.node? p = some n) : p.length < d.depthBound := by
  rw [depthBound, List.foldl_max, Nat.lt_succ_iff]
  by_cases hne : p = []
  · simp [hne]
  · have hmem : p.length ∈ d.entries.map fun e => e.1.length :=
      List.mem_map.mpr ⟨_, mem_entries_of_node? hne h, rfl⟩
    exact Nat.le_trans (List.le_max?_getD_of_mem hmem) (Nat.le_max_right _ _)

/-- Whatever a path leads through can be gone through. -/
theorem isSearchable_of_follow (h : d.follow p (name :: parts) = .ok q) :
    ∃ here, d.node? p = some here ∧ here.isDirectory = true ∧ here.isSearchable = true := by
  rw [follow] at h
  cases hhere : d.node? p with
  | none => simp [hhere] at h
  | some here =>
    refine ⟨here, rfl, ?_⟩
    cases hdir : here.isDirectory <;> cases hsearch : here.isSearchable <;>
      simp [hhere, hdir, hsearch] at h ⊢

/-- Every directory on the way from a place along the names can be listed, whatever stands at the
end of the way. -/
def isListable (d : Disk) : Place → List LooseText → Bool
  | _, [] => true
  | p, name :: rest => (d.node? p).any Node.isReadable && isListable d (p ++ [name]) rest

theorem isListable_cons_iff {here : Node} (hhere : d.node? p = some here) (name : LooseText)
    (rest : List LooseText) : d.isListable p (name :: rest) = true ↔
      here.isReadable = true ∧ d.isListable (p ++ [name]) rest = true := by
  simp [isListable, hhere]

theorem isListable_append (d : Disk) (p : Place) (parts more : List LooseText) :
    d.isListable p (parts ++ more) = (d.isListable p parts && d.isListable (p ++ parts) more) := by
  induction parts generalizing p with
  | nil => simp [isListable]
  | cons name rest ih => simp [isListable, ih, Bool.and_assoc]

end Disk

namespace Search

/-- A walk from a place comes to the file whose path from there has these parts. -/
inductive IsWalked (d : Disk) : Place → List LooseText → Prop where
  | file {p : Place} {name : LooseText} {here n : Node} (hhere : d.node? p = some here)
      (hread : here.isReadable = true) (hn : d.node? (p ++ [name]) = some n)
      (hfile : n.isDirectory = false) : IsWalked d p [name]
  | enter {p : Place} {name : LooseText} {here n : Node} {rest : List LooseText}
      (hhere : d.node? p = some here) (hread : here.isReadable = true)
      (hsearch : here.isSearchable = true) (henters : enters name = true)
      (hn : d.node? (p ++ [name]) = some n) (hdir : n.isDirectory = true)
      (hrest : IsWalked d (p ++ [name]) rest) : IsWalked d p (name :: rest)

theorem IsWalked.ne_nil (h : IsWalked d p parts) : parts ≠ [] := by
  cases h <;> simp

/-- What a walk finds is a file right here, or behind a directory that it enters. -/
theorem mem_walk_succ_iff (hd : d.WellFormed) : parts ∈ walk d (depth + 1) p ↔
    ∃ here name n, d.node? p = some here ∧ here.isReadable = true ∧
      d.node? (p ++ [name]) = some n ∧
      (n.isDirectory = false ∧ parts = [name] ∨
        n.isDirectory = true ∧ here.isSearchable = true ∧ enters name = true ∧
          ∃ rest ∈ walk d depth (p ++ [name]), name :: rest = parts) := by
  rw [walk]
  cases hhere : d.node? p with
  | none => simp
  | some here =>
    cases hread : here.isReadable with
    | false => simp [hread]
    | true =>
      simp only [Bool.not_true, Bool.false_eq_true, if_false, List.mem_flatMap, Prod.exists,
        hd.mem_children, Option.some.injEq, exists_and_left, exists_eq_left', hread, true_and]
      refine exists_congr fun name => exists_congr fun n => and_congr_right fun _ => ?_
      cases hdir : n.isDirectory with
      | false => simp
      | true => cases hsearch : here.isSearchable <;> cases henters : enters name <;> simp

/-- The walk finds exactly the files that it comes to within the given depth. -/
theorem mem_walk (hd : d.WellFormed) :
    parts ∈ walk d depth p ↔ IsWalked d p parts ∧ parts.length ≤ depth := by
  induction depth generalizing p parts with
  | zero =>
    simp only [walk, List.not_mem_nil, Nat.le_zero, List.length_eq_zero_iff, false_iff, not_and]
    exact IsWalked.ne_nil
  | succ depth ih =>
    rw [mem_walk_succ_iff hd]
    constructor
    · rintro ⟨here, name, n, hhere, hread, hn, ⟨hfile, rfl⟩ |
        ⟨hdir, hsearch, henters, rest, hrest, rfl⟩⟩
      · exact ⟨.file hhere hread hn hfile, by simp⟩
      · obtain ⟨hwalked, hlength⟩ := ih.mp hrest
        exact ⟨.enter hhere hread hsearch henters hn hdir hwalked, Nat.succ_le_succ hlength⟩
    · rintro ⟨h, hlength⟩
      cases h with
      | file hhere hread hn hfile => exact ⟨_, _, _, hhere, hread, hn, .inl ⟨hfile, rfl⟩⟩
      | enter hhere hread hsearch henters hn hdir hrest =>
        have hmem := ih.mpr ⟨hrest, Nat.le_of_succ_le_succ hlength⟩
        exact ⟨_, _, _, hhere, hread, hn, .inr ⟨hdir, hsearch, henters, _, hmem, rfl⟩⟩

/-- What a walk finds in an entry begins with the name of the entry. -/
theorem head?_of_mem_walk_child {e : LooseText × Node} {here : Node} (h : parts ∈
    (if !e.2.isDirectory then [[e.1]]
      else if here.isSearchable && enters e.1 then
        (walk d depth (p ++ [e.1])).map (e.1 :: ·)
      else [])) : parts.head? = some e.1 := by
  split at h
  · rw [List.mem_singleton.mp h]
    rfl
  · split at h
    · obtain ⟨rest, _, rfl⟩ := List.mem_map.mp h
      rfl
    · cases h

/-- The walk finds each file once. -/
theorem nodup_walk (hd : d.WellFormed) (depth : Nat) (p : Place) : (walk d depth p).Nodup := by
  induction depth generalizing p with
  | zero => exact .nil
  | succ depth ih =>
    rw [walk]
    split
    · exact .nil
    · split
      · exact .nil
      · rw [List.nodup_flatMap]
        constructor
        · rintro ⟨name, n⟩ _
          simp only
          split
          · exact List.nodup_singleton _
          · split
            · exact (ih _).map fun _ _ h => (List.cons.inj h).2
            · exact .nil
        · refine (List.pairwise_map.mp (hd.nodup_children p)).imp fun {e e'} hne => ?_
          intro parts h h'
          have heq := (head?_of_mem_walk_child h).symm.trans (head?_of_mem_walk_child h')
          exact hne (Option.some.inj heq)

/-- Where a path leads to a file, a walk comes to it if every directory on the way is entered and
can be listed. -/
theorem isWalked_iff {dirs : List LooseText} (hnames : ∀ dir ∈ dirs, IsEntryName dir)
    (hfollow : d.follow p (dirs ++ [name]) = .ok q) :
    IsWalked d p (dirs ++ [name]) ↔ (∀ dir ∈ dirs, enters dir = true) ∧
      d.isListable p (dirs ++ [name]) = true ∧
      ∃ n, d.node? (p ++ (dirs ++ [name])) = some n ∧ n.isDirectory = false := by
  induction dirs generalizing p with
  | nil =>
    constructor
    · intro h
      cases h with
      | file hhere hread hn hfile => simpa [Disk.isListable, hhere, hread] using ⟨_, hn, hfile⟩
      | enter _ _ _ _ _ _ hrest => exact (hrest.ne_nil rfl).elim
    · rintro ⟨_, hlist, n, hn, hfile⟩
      obtain ⟨here, hhere, _⟩ := Disk.isSearchable_of_follow hfollow
      exact .file hhere (by simpa [Disk.isListable, hhere] using hlist) hn hfile
  | cons dir dirs ih =>
    rw [List.cons_append] at hfollow ⊢
    obtain ⟨hdir, hdirs⟩ := List.forall_mem_cons.mp hnames
    obtain ⟨here, hhere, _, hsearch⟩ := Disk.isSearchable_of_follow hfollow
    have hrest := (Disk.of_follow_cons hfollow).2
    rw [FilePath.stepDown, if_neg hdir.ne_back, hdir.known_eq] at hrest
    have hinner := ih hdirs hrest
    obtain ⟨first, more, hmore⟩ := List.exists_cons_of_ne_nil (List.append_ne_nil_of_right_ne_nil
      dirs (List.cons_ne_nil name []))
    rw [List.append_assoc, List.singleton_append] at hinner
    rw [hmore] at hinner hrest ⊢
    rw [List.forall_mem_cons]
    constructor
    · intro h
      cases h with
      | enter hhere hread _ henters _ _ hwalked =>
        obtain ⟨hall, hlist, hfile⟩ := hinner.mp hwalked
        exact ⟨⟨henters, hall⟩, (Disk.isListable_cons_iff hhere _ _).mpr ⟨hread, hlist⟩, hfile⟩
    · rintro ⟨⟨henters, hall⟩, hlist, hfile⟩
      obtain ⟨hread, hlist⟩ := (Disk.isListable_cons_iff hhere _ _).mp hlist
      obtain ⟨next, hnext, hisdir, _⟩ := Disk.isSearchable_of_follow hrest
      exact .enter hhere hread hsearch henters hnext hisdir (hinner.mpr ⟨hall, hlist, hfile⟩)

end Search

end AsmListing
