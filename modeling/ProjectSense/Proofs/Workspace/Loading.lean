import ProjectSense.Proofs.Text.Utf8
import ProjectSense.Proofs.Workspace.Edits
import ProjectSense.Proofs.Workspace.Files
import ProjectSense.Workspace.Loader

/-!
# Loading folders

What a folder holds at any depth is loaded in path order.  A file that cannot be loaded is reported
and leaves the others as they are.

* `FileTree.collects_filesAt`: which files are found, and in which order.
* `Host.opens_setAll`, `Host.adds_foldl`: what they do to a host.
* `Host.loads_folder`: all of it.
-/

namespace ProjectSense

variable {ε α : Type} {results : List (String × Except ε α)} {path : String}

/-! ### Results -/

theorem mem_succeeded {a : α} : (path, a) ∈ succeeded results ↔ (path, .ok a) ∈ results := by
  rw [succeeded, List.mem_filterMap]
  constructor
  · rintro ⟨⟨p, _ | b⟩, hr, heq⟩
    · cases heq
    · obtain ⟨rfl, rfl⟩ := Prod.mk.inj (Option.some.inj heq)
      exact hr
  · intro h
    exact ⟨_, h, rfl⟩

theorem map_snd_succeeded (results : List (String × Except ε α)) :
    (succeeded results).map (·.2) = results.filterMap fun r => r.2.toOption := by
  rw [succeeded, List.map_filterMap]
  refine List.filterMap_congr fun r _ => ?_
  cases r.2 <;> rfl

theorem pairwise_succeeded {R : String → String → Prop}
    (h : results.Pairwise fun r s => R r.1 s.1) :
    (succeeded results).Pairwise fun r s => R r.1 s.1 := by
  rw [succeeded, List.pairwise_filterMap]
  refine h.imp fun {r s} hr a ha b hb => ?_
  obtain ⟨p, _ | _⟩ := r <;> cases ha
  obtain ⟨q, _ | _⟩ := s <;> cases hb
  exact hr

/-- nothing is reported just when nothing failed -/
theorem reportOf_failed_eq_none {report : List (String × ε) → LoadError} :
    reportOf report (failed results) = none ↔ ∀ r ∈ results, ∃ a, r.2 = .ok a := by
  have hnone : reportOf report (failed results) = none ↔ failed results = [] := by
    cases failed results <;> simp [reportOf]
  rw [hnone, failed, List.filterMap_eq_nil_iff]
  refine forall₂_congr fun r _ => ?_
  cases r.2 <;> simp

/-! ### Texts -/

theorem FileTree.decodeText_eq_ok {bytes : List UInt8} {text : String} :
    decodeText bytes = .ok text ↔ bytes = Text.Utf8.encode text.toList := by
  constructor
  · intro h
    rw [decodeText] at h
    split at h
    · next hdecode =>
      cases h
      exact (Text.Utf8.encode_of_decode? hdecode).symm
    · cases h
  · rintro rfl
    rw [decodeText, Text.Utf8.decode?, Text.Utf8.decode_encode, if_pos rfl, String.ofList_toList]

namespace FileTree

open ProjectSense.Path (pathOf)

variable {root t : FileTree} {path : String}

/-- the files are the accepted ones at any depth of a tree that stands at a path: once each, since
no two of them have the same path, and in path order -/
structure Collects (root t : FileTree) (accepts : String → Bool) (path : String)
    (files : List (String × List UInt8)) : Prop where
  mem (p : String) (bytes : List UInt8) : (p, bytes) ∈ files ↔
    ∃ names, t.Holds names bytes ∧ p = pathOf path names ∧ accepts p = true
  apart {names names' : List String} {bytes bytes' : List UInt8} (h : t.Holds names bytes)
    (h' : t.Holds names' bytes')
    (hsame : samePath (pathOf path names) (pathOf path names') = true) : names = names'
  ordered : files.Pairwise fun f g => Path.Before f.1 g.1
  located : ∀ f ∈ files, root.locate f.1 = .ok (.file f.2)

theorem collects_filesAt (hp : t.Proper) (h : root.locate path = .ok t)
    (accepts : String → Bool) : Collects root t accepts path (t.filesAt accepts path) where
  mem p bytes := mem_filesAt accepts t path
  apart h h' := Path.eq_of_samePath_pathOf path (h.isEntryName hp) (h'.isEntryName hp)
  ordered := pairwise_filesAt accepts hp path
  located f hf := by
    obtain ⟨names, hheld, hpath, -⟩ := (mem_filesAt accepts t path).1 hf
    rw [hpath]
    exact locate_pathOf hp hheld h

end FileTree

namespace Host

variable {h : Host} {root t : FileTree} {accepts : String → Bool} {path q : String}
  {entries : List (String × FileTree)} {files : List (String × List UInt8)}

/-! ### Project files -/

/-- files that stand at other paths leave a path as it is -/
theorem lookup_putAll_of_not {more : List OpenFile} (hmore : ∀ f ∈ more, f.isAt q = false)
    (files : List OpenFile) :
    lookup (more.foldl (fun files f => put f files) files) q = lookup files q := by
  induction more generalizing files with
  | nil => rfl
  | cons f more ih =>
    obtain ⟨hf, hmore⟩ := List.forall_mem_cons.1 hmore
    rw [List.foldl_cons, ih hmore, lookup_put, hf]
    rfl

/-- of files that stand at different paths every one is found -/
theorem lookup_putAll_of_mem {more : List OpenFile} {f : OpenFile} (hmem : f ∈ more)
    (hapart : more.Pairwise fun f g => samePath f.document.path g.document.path = false)
    (hf : f.isAt q = true) (files : List OpenFile) :
    lookup (more.foldl (fun files f => put f files) files) q = some f := by
  obtain ⟨front, back, rfl⟩ := List.append_of_mem hmem
  have hback : ∀ g ∈ back, g.isAt q = false := by
    intro g hg
    have hne := (List.pairwise_cons.1 (List.pairwise_append.1 hapart).2.1).1 g hg
    refine Bool.eq_false_iff.2 fun hgq => ?_
    exact Bool.false_ne_true (hne.symm.trans (samePath_of_isAt hf hgq))
  rw [List.foldl_append, List.foldl_cons, lookup_putAll_of_not hback, lookup_put, if_pos hf]

/-- The files whose bytes are a text are open, and each path that is none of theirs has the file
that it had.  All is well just when every file is a text. -/
structure Opens (h : Host) (files : List (String × List UInt8))
    (loaded : Host × Option LoadError) : Prop where
  opened (p text q : String) (hmem : (p, Text.Utf8.encode text.toList) ∈ files)
    (hsame : samePath p q = true) : loaded.1.file? q = some (h.openFile p text)
  kept (q : String) (hother : ∀ p text, (p, Text.Utf8.encode (String.toList text)) ∈ files →
    samePath p q = false) : loaded.1.file? q = h.file? q
  rest : loaded.1 = { h with files := loaded.1.files }
  report : loaded.2 = none ↔ ∀ f ∈ files, ∃ text : String, f.2 = Text.Utf8.encode text.toList

/-- the texts of the files, read one by one -/
def textsOf (files : List (String × List UInt8)) : List (String × Except IoError String) :=
  files.map fun f => (f.1, FileTree.decodeText f.2)

theorem mem_textsOf {p text : String} :
    (p, text) ∈ succeeded (textsOf files) ↔ (p, Text.Utf8.encode text.toList) ∈ files := by
  rw [mem_succeeded, textsOf, List.mem_map]
  constructor
  · rintro ⟨⟨p, bytes⟩, hf, heq⟩
    obtain ⟨rfl, htext⟩ := Prod.mk.inj heq
    rwa [← FileTree.decodeText_eq_ok.1 htext]
  · intro h
    exact ⟨_, h, Prod.ext rfl (FileTree.decodeText_eq_ok.2 rfl)⟩

theorem opens_setAll (h : Host) (hapart : files.Pairwise fun f g => samePath f.1 g.1 = false) :
    h.Opens files
      (h.setAll (succeeded (textsOf files)), reportOf .files (failed (textsOf files))) where
  opened p text q hmem hsame := by
    refine lookup_putAll_of_mem (f := h.openFile p text) ?_ ?_ hsame h.files
    · exact List.mem_map.2 ⟨(p, text), mem_textsOf.2 hmem, rfl⟩
    · exact List.pairwise_map.2 (pairwise_succeeded (R := fun a b => samePath a b = false)
        (List.pairwise_map.2 hapart))
  kept q hother := by
    refine lookup_putAll_of_not (fun f hf => ?_) h.files
    obtain ⟨⟨p, text⟩, hmem, rfl⟩ := List.mem_map.1 hf
    exact hother p text (mem_textsOf.1 hmem)
  rest := rfl
  report := by
    rw [reportOf_failed_eq_none, textsOf, List.forall_mem_map]
    exact forall₂_congr fun f _ => exists_congr fun text => FileTree.decodeText_eq_ok

theorem loadFolder_eq (h : Host) (hpath : root.locate path = .ok (.folder entries)) :
    h.loadFolder root path =
      let texts := textsOf ((FileTree.folder entries).filesAt isProjectFile path)
      (h.setAll (succeeded texts), reportOf .files (failed texts)) := by
  rw [loadFolder, hpath]
  rfl

/-! ### Schemas -/

/-- The files that hold a schema have added it, in order.  All is well just when every file does. -/
structure Adds (h : Host) (root : FileTree) (files : List (String × List UInt8))
    (loaded : Host × Option LoadError) : Prop where
  added : loaded.1 =
    (files.filterMap fun f => (Schema.load root f.1).toOption).foldl addSchema h
  schemas : loaded.1.schemas =
    h.schemas ++ files.filterMap fun f => (Schema.load root f.1).toOption
  report : loaded.2 = none ↔ ∀ f ∈ files, ∃ s, Schema.load root f.1 = .ok s

theorem schemas_foldl_addSchema (h : Host) (more : List Schema) :
    (more.foldl addSchema h).schemas = h.schemas ++ more := by
  induction more generalizing h with
  | nil => simp
  | cons s more ih =>
    rw [List.foldl_cons, ih, addSchema, List.append_assoc, List.singleton_append]

/-- the schemas of the files, read one by one -/
def schemasOf (files : List (String × List UInt8)) : List (String × Except SchemaError Schema) :=
  files.map fun f => (f.1, Schema.ofBytes f.1 f.2)

theorem adds_foldl (h : Host) (hlocated : ∀ f ∈ files, root.locate f.1 = .ok (.file f.2)) :
    h.Adds root files ((succeeded (schemasOf files)).foldl (fun h s => h.addSchema s.2) h,
      reportOf .schemas (failed (schemasOf files))) := by
  -- at its path each file is read as it was found
  have hload : ∀ f ∈ files, Schema.load root f.1 = Schema.ofBytes f.1 f.2 := by
    intro f hf
    rw [Schema.load, hlocated f hf]
  have hschemas : (succeeded (schemasOf files)).map (·.2) =
      files.filterMap fun f => (Schema.load root f.1).toOption := by
    rw [map_snd_succeeded, schemasOf, List.filterMap_map]
    exact List.filterMap_congr fun f hf => congrArg Except.toOption (hload f hf).symm
  refine ⟨?_, ?_, ?_⟩
  · rw [← hschemas, List.foldl_map]
  · rw [← hschemas, ← schemas_foldl_addSchema, List.foldl_map]
  · rw [reportOf_failed_eq_none, schemasOf, List.forall_mem_map]
    refine forall₂_congr fun f hf => ?_
    rw [hload f hf]

theorem loadSchemas_eq (h : Host) (hpath : root.locate path = .ok (.folder entries)) :
    h.loadSchemas root path =
      let schemas := schemasOf ((FileTree.folder entries).filesAt isSchemaFile path)
      ((succeeded schemas).foldl (fun h s => h.addSchema s.2) h,
        reportOf .schemas (failed schemas)) := by
  rw [loadSchemas, hpath]
  rfl

/-! ### Folders -/

/-- Loading a folder with proper names in it.  Whichever files are asked for, exactly those at any
depth are found, once each and in path order, and each of their paths leads to its file.  The
project files among them that are texts replace what the host had at their paths or come in
addition, and nothing else changes.  The schema files among them that load are added in order.
Either reports a failure just when there is one. -/
theorem loads_folder (h : Host) (hpath : root.locate path = .ok (.folder entries))
    (hproper : (FileTree.folder entries).Proper) :
    let found := fun accepts => (FileTree.folder entries).filesAt accepts path
    (∀ accepts, FileTree.Collects root (.folder entries) accepts path (found accepts)) ∧
      h.Opens (found isProjectFile) (h.loadFolder root path) ∧
      h.Adds root (found isSchemaFile) (h.loadSchemas root path) := by
  intro found
  have hfound : ∀ accepts,
      FileTree.Collects root (.folder entries) accepts path (found accepts) :=
    FileTree.collects_filesAt hproper hpath
  refine ⟨hfound, ?_, ?_⟩
  · rw [loadFolder_eq h hpath]
    exact opens_setAll h ((hfound isProjectFile).ordered.imp Path.Before.not_samePath)
  · rw [loadSchemas_eq h hpath]
    exact adds_foldl h (hfound isSchemaFile).located

theorem loads_folder_mixed :
    let below : List (String × FileTree) :=
      [("p.proj", .file [0xFF]), ("q.props", .file [0x61])]
    let entries : List (String × FileTree) := [("sub", .folder below), ("a.targets", .file [0x62])]
    let root : FileTree := .folder [("w", .folder entries)]
    let h := start (fun _ => none) root.listing default
    root.locate "/w" = .ok (.folder entries) ∧ (FileTree.folder entries).Proper ∧
      (h.loadFolder root "/w").1.file? "/w/./sub/q.props" = some (h.openFile "/w/sub/q.props" "a") ∧
      (h.loadFolder root "/w").2 ≠ none := by
  intro below entries root h
  have hpath : root.locate "/w" = .ok (.folder entries) := by rfl
  have hbelow : (FileTree.folder below).Proper :=
    .folder (by decide) (by decide)
      (List.forall_mem_cons.2 ⟨.file _, List.forall_mem_singleton.2 (.file _)⟩)
  have hproper : (FileTree.folder entries).Proper :=
    .folder (by decide) (by decide)
      (List.forall_mem_cons.2 ⟨hbelow, List.forall_mem_singleton.2 (.file _)⟩)
  obtain ⟨hfound, hopens, -⟩ := loads_folder h hpath hproper
  have hfound := (hfound isProjectFile).mem
  refine ⟨hpath, hproper, ?_, fun hnone => ?_⟩
  · refine hopens.opened "/w/sub/q.props" "a" _ ((hfound _ _).2 ⟨["sub", "q.props"], ?_, ?_⟩)
      (by decide)
    · exact .folder List.mem_cons_self
        (.folder (List.mem_cons_of_mem _ List.mem_cons_self) (.file _))
    · exact ⟨rfl, by decide⟩
  · -- the byte is no text
    have hmem := (hfound "/w/sub/p.proj" [0xFF]).2 ⟨["sub", "p.proj"],
      .folder List.mem_cons_self (.folder List.mem_cons_self (.file _)), rfl, by decide⟩
    obtain ⟨text, htext⟩ := hopens.report.1 hnone _ hmem
    have hread := FileTree.decodeText_eq_ok.2 htext
    have hfails : FileTree.decodeText [0xFF] = .error .notText := by decide
    cases hfails.symm.trans hread

end Host
end ProjectSense
