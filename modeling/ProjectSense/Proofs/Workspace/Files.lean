import ProjectSense.Proofs.Path.Component
import ProjectSense.Workspace.FileTree

/-!
# The files of a tree

Every folder lists what its entries hold, the entries by name.  Since the path of an entry is that
of its folder with one more component, the order within each folder is the order of all the paths
that are listed.

* `FileTree.Holds`: the files of a tree, each at the end of a chain of names.
* `FileTree.mem_filesAt`: what is listed; `FileTree.pairwise_filesAt`: in which order.
* `FileTree.locate_pathOf`: a path that is listed leads back to its file.
-/

namespace ProjectSense.FileTree

open ProjectSense.Path (IsEntryName pathOf)

variable {root t child : FileTree} {entries : List (String × FileTree)} {above : List FileTree}
  {name path : String} {names pieces : List String} {bytes : List UInt8}

/-- what holds of a folder when it holds of what is in it, holds of every tree -/
@[elab_as_elim]
theorem inside {P : FileTree → Prop} (file : ∀ bytes, P (.file bytes))
    (folder : ∀ entries, (∀ e ∈ entries, P e.2) → P (.folder entries)) : ∀ t, P t
  | .file bytes => file bytes
  | .folder entries => folder entries fun e _ => inside file folder e.2
termination_by t => t
decreasing_by
  have hlt := List.sizeOf_lt_of_mem ‹e ∈ entries›
  cases e
  simp at hlt ⊢
  omega

/-- the entries of every folder have names, and different ones -/
inductive Proper : FileTree → Prop
  | file (bytes : List UInt8) : Proper (file bytes)
  | folder {entries : List (String × FileTree)} (apart : (entries.map (·.1)).Nodup)
      (named : ∀ e ∈ entries, IsEntryName e.1.toList) (inside : ∀ e ∈ entries, Proper e.2) :
      Proper (folder entries)

/-- the names lead down through the folders of the tree to a file -/
inductive Holds : FileTree → List String → List UInt8 → Prop
  | file (bytes : List UInt8) : Holds (file bytes) [] bytes
  | folder {entries : List (String × FileTree)} {name : String} {t : FileTree}
      {names : List String} {bytes : List UInt8} (mem : (name, t) ∈ entries)
      (inside : Holds t names bytes) : Holds (folder entries) (name :: names) bytes

theorem Holds.isEntryName (h : t.Holds names bytes) (hp : t.Proper) :
    ∀ n ∈ names, IsEntryName n.toList := by
  induction h with
  | file => simp
  | folder hmem _ ih =>
    obtain _ | ⟨-, hnamed, hinside⟩ := hp
    exact List.forall_mem_cons.2 ⟨hnamed _ hmem, ih (hinside _ hmem)⟩

/-! ### Following a path -/

theorem lookup_of_mem (hapart : (entries.map (·.1)).Nodup) (h : (name, t) ∈ entries) :
    entries.lookup name = some t := by
  obtain ⟨front, back, rfl⟩ := List.append_of_mem h
  rw [List.map_append, List.map_cons, List.nodup_append] at hapart
  refine List.lookup_eq_some_iff.2 ⟨front, back, rfl, fun e he => ?_⟩
  have hne : e.1 ≠ name :=
    hapart.2.2 e.1 (List.mem_map_of_mem he) name List.mem_cons_self
  simpa using hne.symm

/-- the way from a folder up, if there is one -/
def outOf (t : FileTree) : List FileTree → List FileTree × FileTree
  | [] => ([], t)
  | parent :: above => (above, parent)

/-- the folders around what a piece leads to, and what it leads to -/
def follow : List FileTree × FileTree → String → Except IoError (List FileTree × FileTree)
  | (_, file _), _ => .error .notADirectory
  | (above, folder entries), piece =>
    if piece = "" || piece = "." then .ok (above, folder entries)
    else if piece = ".." then .ok (outOf (folder entries) above)
    else match entries.lookup piece with
      | some child => .ok (folder entries :: above, child)
      | none => .error .notFound

/-- pieces are followed one after the other -/
theorem walk_eq (above : List FileTree) (t : FileTree) (pieces : List String) :
    walk above t pieces = (pieces.foldlM follow (above, t)).map (·.2) := by
  fun_induction walk above t pieces with
  | case1 => rfl
  | case2 => rfl
  | case3 above entries piece pieces hstay ih =>
    rw [ih, List.foldlM_cons, follow, if_pos hstay]
    rfl
  | case4 entries pieces _ ih => exact ih
  | case5 entries pieces parent above _ ih => exact ih
  | case6 above entries piece pieces hstay hup child hfound ih =>
    rw [ih, List.foldlM_cons, follow, if_neg hstay, if_neg hup, hfound]
    rfl
  | case7 above entries piece pieces hstay hup hfound =>
    rw [List.foldlM_cons, follow, if_neg hstay, if_neg hup, hfound]
    rfl

theorem walk_eq_ok : walk above t pieces = .ok child ↔
    ∃ around, pieces.foldlM follow (above, t) = .ok (around, child) := by
  rw [walk_eq]
  cases pieces.foldlM follow (above, t) with
  | error => simp [Except.map]
  | ok pos => simp [Except.map, Prod.ext_iff]

/-- the last piece is followed from where the others lead -/
theorem walk_concat_eq_ok {piece : String} : walk above t (pieces ++ [piece]) = .ok child ↔
    ∃ pos around, pieces.foldlM follow (above, t) = .ok pos ∧
      follow pos piece = .ok (around, child) := by
  simp only [walk_eq_ok, List.foldlM_append, List.foldlM_cons, List.foldlM_nil, bind_pure]
  cases pieces.foldlM follow (above, t) with
  | error => simp [bind, Except.bind]
  | ok pos => simp [bind, Except.bind]

theorem follow_name (above : List FileTree) (hname : IsEntryName name.toList)
    (hfound : entries.lookup name = some child) :
    follow (above, folder entries) name = .ok (folder entries :: above, child) := by
  have hstay : ¬(name = "" || name = ".") = true := by
    intro h
    rcases (Bool.or_eq_true_iff.1 h).imp of_decide_eq_true of_decide_eq_true with rfl | rfl
    exacts [hname.isName.1 rfl, hname.isName.2.1 rfl]
  have hup : name ≠ ".." := by
    rintro rfl
    exact hname.isName.2.2 rfl
  rw [follow, if_neg hstay, if_neg hup, hfound]

/-- a path to a folder goes on to what the folder has under a name -/
theorem walk_concat (hname : IsEntryName name.toList) (hfound : entries.lookup name = some child)
    (h : walk above t pieces = .ok (folder entries)) :
    walk above t (pieces ++ [name]) = .ok child := by
  obtain ⟨around, haround⟩ := walk_eq_ok.1 h
  exact walk_concat_eq_ok.2 ⟨_, _, haround, follow_name around hname hfound⟩

/-- a slash behind a path changes nothing about the folder it leads to -/
theorem walk_of_concat_nil (h : walk above t (pieces ++ [""]) = .ok (folder entries)) :
    walk above t pieces = .ok (folder entries) := by
  obtain ⟨⟨around, last⟩, _, hpos, hstay⟩ := walk_concat_eq_ok.1 h
  cases last with
  | file => cases hstay
  | folder =>
    cases hstay
    exact walk_eq_ok.2 ⟨_, hpos⟩

theorem locate_eq (root : FileTree) (h : path.toList ≠ []) :
    root.locate path =
      walk [] root ((Text.splitOn Path.isSlash path.toList).map String.ofList) := by
  have hne : path.isEmpty = false := by
    simpa [String.isEmpty_iff] using h
  rw [locate, hne]
  rfl

/-- a name that is joined to the path of a folder leads to the entry -/
theorem locate_joinPath (hp : (folder entries).Proper) (hmem : (name, child) ∈ entries)
    (h : root.locate path = .ok (folder entries)) :
    root.locate (joinPath path name) = .ok child := by
  obtain _ | ⟨hapart, hnamed, -⟩ := hp
  have hname : IsEntryName name.toList := hnamed _ hmem
  have hpath : path.toList ≠ [] := by
    rintro heq
    obtain rfl : path = "" := String.toList_eq_nil_iff.1 heq
    cases h
  obtain ⟨pieces, hjoin, hdir⟩ := Path.splitOn_join hname hpath
  have hstart : walk [] root (pieces.map String.ofList) = .ok (folder entries) := by
    rw [locate_eq root hpath] at h
    rcases hdir with hdir | hdir
    · rwa [hdir] at h
    · rw [hdir, List.map_append] at h
      exact walk_of_concat_nil h
  have hjoined : (joinPath path name).toList = Path.join path.toList name.toList :=
    String.toList_ofList
  rw [locate_eq root (hjoined ▸ Path.join_ne_nil hname _), hjoined, hjoin, List.map_append,
    List.map_singleton, String.ofList_toList]
  exact walk_concat hname (lookup_of_mem hapart hmem) hstart

/-- the names that lead to a file in a tree make a path that leads to it -/
theorem locate_pathOf (hp : t.Proper) (hheld : t.Holds names bytes)
    (h : root.locate path = .ok t) : root.locate (pathOf path names) = .ok (file bytes) := by
  induction hheld generalizing path with
  | file => exact h
  | folder hmem _ ih =>
    have hnext := locate_joinPath hp hmem h
    obtain _ | ⟨-, -, hinside⟩ := hp
    exact ih (hinside _ hmem) hnext

/-! ### The files that are listed -/

variable {accepts : String → Bool}

/-- different names are strictly increasing once they are sorted -/
theorem pairwise_lt_mergeSort {α : Type} {l : List (String × α)} (h : (l.map (·.1)).Nodup) :
    (l.mergeSort fun a b => a.1 ≤ b.1).Pairwise fun a b => a.1 < b.1 := by
  have htrans : ∀ a b c : String × α, decide (a.1 ≤ b.1) = true → decide (b.1 ≤ c.1) = true →
      decide (a.1 ≤ c.1) = true := fun a b c hab hbc =>
    decide_eq_true (String.le_trans (of_decide_eq_true hab) (of_decide_eq_true hbc))
  have htotal : ∀ a b : String × α, (decide (a.1 ≤ b.1) || decide (b.1 ≤ a.1)) = true :=
    fun a b => by simpa using String.le_total a.1 b.1
  have hle := List.pairwise_mergeSort htrans htotal l
  have hperm := List.mergeSort_perm l fun a b => decide (a.1 ≤ b.1)
  have hne := List.pairwise_map.1 ((hperm.map (·.1)).nodup_iff.2 h)
  exact (hle.and hne).imp fun h => String.not_le.1 fun hge =>
    h.2 (String.le_antisymm (of_decide_eq_true h.1) hge)

theorem filesOfEntries_eq (accepts : String → Bool) (path : String)
    (entries : List (String × FileTree)) :
    filesOfEntries accepts path entries =
      entries.map fun e => (e.1, filesAt accepts (joinPath path e.1) e.2) := by
  induction entries with
  | nil => rfl
  | cons e entries ih => rw [filesOfEntries, ih, List.map_cons]

theorem mem_filesOfEntries {es : String × List (String × List UInt8)}
    (h : es ∈ filesOfEntries accepts path entries) :
    ∃ e ∈ entries, es = (e.1, filesAt accepts (joinPath path e.1) e.2) := by
  rw [filesOfEntries_eq] at h
  obtain ⟨e, he, rfl⟩ := List.mem_map.1 h
  exact ⟨e, he, rfl⟩

theorem mem_filesAt_folder {f : String × List UInt8} :
    f ∈ filesAt accepts path (folder entries) ↔
      ∃ e ∈ entries, f ∈ filesAt accepts (joinPath path e.1) e.2 := by
  simp [filesAt, filesOfEntries_eq]

theorem holds_file {b : List UInt8} : (file b).Holds names bytes ↔ names = [] ∧ bytes = b := by
  constructor
  · rintro ⟨⟩
    exact ⟨rfl, rfl⟩
  · rintro ⟨rfl, rfl⟩
    exact .file _

theorem holds_folder : (folder entries).Holds names bytes ↔
    ∃ e ∈ entries, ∃ rest, names = e.1 :: rest ∧ e.2.Holds rest bytes := by
  constructor
  · rintro ⟨⟩
    next name t rest hmem hinside => exact ⟨_, hmem, rest, rfl, hinside⟩
  · rintro ⟨e, he, rest, rfl, hinside⟩
    exact .folder he hinside

/-- exactly the accepted files at any depth are listed -/
theorem mem_filesAt {p : String} (accepts : String → Bool) (t : FileTree) (path : String) :
    (p, bytes) ∈ t.filesAt accepts path ↔
      ∃ names, t.Holds names bytes ∧ p = pathOf path names ∧ accepts p = true := by
  induction t using inside generalizing path with
  | file b =>
    rw [filesAt]
    split
    · next h =>
      simp only [List.mem_singleton, Prod.mk.injEq, holds_file]
      constructor
      · rintro ⟨rfl, rfl⟩
        exact ⟨[], ⟨rfl, rfl⟩, rfl, h⟩
      · rintro ⟨_, ⟨rfl, rfl⟩, rfl, -⟩
        exact ⟨rfl, rfl⟩
    · next h =>
      simp only [List.not_mem_nil, false_iff, holds_file]
      rintro ⟨_, ⟨rfl, rfl⟩, rfl, haccepts⟩
      exact h haccepts
  | folder entries ih =>
    simp only [mem_filesAt_folder, holds_folder]
    constructor
    · rintro ⟨e, he, hf⟩
      obtain ⟨names, hheld, rfl, haccepts⟩ := (ih e he _).1 hf
      exact ⟨e.1 :: names, ⟨e, he, names, rfl, hheld⟩, rfl, haccepts⟩
    · rintro ⟨_, ⟨e, he, names, rfl, hheld⟩, rfl, haccepts⟩
      exact ⟨e, he, (ih e he _).2 ⟨names, hheld, rfl, haccepts⟩⟩

/-- what is listed for an entry is at paths that begin with its name -/
theorem exists_of_mem_filesAt (hp : t.Proper) {f : String × List UInt8}
    (hname : IsEntryName name.toList) (h : f ∈ t.filesAt accepts (joinPath path name)) :
    ∃ names, (∀ n ∈ name :: names, IsEntryName n.toList) ∧ f.1 = pathOf path (name :: names) := by
  obtain ⟨names, hheld, hf, -⟩ := (mem_filesAt accepts t _).1 h
  exact ⟨names, List.forall_mem_cons.2 ⟨hname, hheld.isEntryName hp⟩, hf⟩

/-- the listing is in path order, so that no path is listed twice -/
theorem pairwise_filesAt (accepts : String → Bool) (hp : t.Proper) (path : String) :
    (t.filesAt accepts path).Pairwise fun f g => Path.Before f.1 g.1 := by
  induction hp generalizing path with
  | file bytes =>
    rw [filesAt]
    split <;> simp
  | @folder entries hapart hnamed hinside ih =>
    rw [filesAt, List.pairwise_flatMap]
    constructor
    · intro es hes
      obtain ⟨e, he, rfl⟩ := mem_filesOfEntries (List.mem_mergeSort.1 hes)
      exact ih e he _
    · refine (pairwise_lt_mergeSort ?_).imp_of_mem fun {es fs} hes hfs hlt f hf g hg => ?_
      · rwa [filesOfEntries_eq, List.map_map]
      · obtain ⟨d, hd, rfl⟩ := mem_filesOfEntries (List.mem_mergeSort.1 hes)
        obtain ⟨e, he, rfl⟩ := mem_filesOfEntries (List.mem_mergeSort.1 hfs)
        obtain ⟨names, hnames, heq⟩ := exists_of_mem_filesAt (hinside d hd) (hnamed d hd) hf
        obtain ⟨names', hnames', heq'⟩ := exists_of_mem_filesAt (hinside e he) (hnamed e he) hg
        rw [heq, heq']
        exact Path.before_pathOf path hlt hnames hnames'

end ProjectSense.FileTree
