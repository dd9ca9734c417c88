import ProjectSense.Workspace.Host

/-!
# What edits leave behind

A host is changed file by file and schema by schema, and what follows from the schemas is patched
in the files that are open.  After any edits each file is as if it had been opened last, once all
the schemas were there.

* `Host.lookup_put`, `Host.lookup_remove`: what a change of the files does to each path.
* `Host.follows_apply`: what an edit keeps; `Host.follows_run`: what all edits lead to.
* `Host.file?_run`: each file is the one built from its last text with the final schemas.
-/

namespace ProjectSense

/-! ### Paths -/

theorem samePath_iff {a b : String} :
    samePath a b = true ↔ Path.components a.toList = Path.components b.toList := by
  simp [samePath]

theorem samePath_congr {a b : String} (h : samePath a b = true) (path : String) :
    samePath a path = samePath b path := by
  rw [samePath, samePath, samePath_iff.1 h]

/-- files that stand at one path have the same one -/
theorem samePath_of_isAt {f g : OpenFile} {path : String} (hf : f.isAt path = true)
    (hg : g.isAt path = true) : samePath f.document.path g.document.path = true :=
  samePath_iff.2 ((samePath_iff.1 hf).trans (samePath_iff.1 hg).symm)

/-! ### Edits -/

/-- a change of one file -/
inductive Change where
  | set (path text : String)
  | remove (path : String)

def Change.path : Change → String
  | set path _ => path
  | remove path => path

/-- the path and the text that the change leaves, if it leaves a file -/
def Change.kept? : Change → Option (String × String)
  | set path text => some (path, text)
  | remove _ => none

/-- a change of a host -/
inductive Edit where
  | set (path text : String)
  | setAll (files : List (String × String))
  | remove (path : String)
  | addSchema (schema : Schema)

namespace Edit

def apply (h : Host) : Edit → Host
  | set path text => h.set path text
  | setAll files => h.setAll files
  | remove path => h.remove path
  | addSchema schema => h.addSchema schema

/-- the changes of files, in order -/
def changes : Edit → List Change
  | set path text => [.set path text]
  | setAll files => files.map fun f => .set f.1 f.2
  | remove path => [.remove path]
  | addSchema _ => []

/-- the schemas that are added -/
def schemas : Edit → List Schema
  | addSchema schema => [schema]
  | _ => []

end Edit

def Host.run (h : Host) (edits : List Edit) : Host := edits.foldl Edit.apply h

/-! ### The last text of a path -/

/-- `text` was set last at the path, which was spelled `name` then, and is there still -/
def LastSet (changes : List Change) (path name text : String) : Prop :=
  ∃ before after, changes = before ++ .set name text :: after ∧ samePath name path = true ∧
    ∀ c ∈ after, samePath c.path path = false

/-- what is left at a path after the changes -/
def leftAt? (changes : List Change) (path : String) : Option (String × String) :=
  (changes.reverse.find? fun c => samePath c.path path) >>= Change.kept?

theorem leftAt?_concat (changes : List Change) (c : Change) (path : String) :
    leftAt? (changes ++ [c]) path =
      if samePath c.path path then c.kept? else leftAt? changes path := by
  rw [leftAt?, List.reverse_concat, List.find?_cons]
  cases samePath c.path path <;> rfl

theorem leftAt?_eq_some {changes : List Change} {path name text : String} :
    leftAt? changes path = some (name, text) ↔ LastSet changes path name text := by
  constructor
  · intro h
    obtain ⟨c, hc, hkept⟩ := Option.bind_eq_some_iff.1 h
    obtain ⟨hsame, after, before, hcut, hafter⟩ := List.find?_eq_some_iff_append.1 hc
    cases c with
    | remove p => cases hkept
    | set p t =>
      obtain ⟨rfl, rfl⟩ := Prod.mk.inj (Option.some.inj hkept)
      refine ⟨before.reverse, after.reverse, ?_, hsame, fun d hd => ?_⟩
      · simpa using congrArg List.reverse hcut
      · simpa using hafter d (List.mem_reverse.1 hd)
  · rintro ⟨before, after, rfl, hsame, hafter⟩
    have hnone : after.reverse.find? (fun c => samePath c.path path) = none := by
      simpa [List.find?_eq_none] using hafter
    rw [leftAt?, List.reverse_append, List.reverse_cons, List.append_assoc, List.find?_append,
      hnone]
    simp [Change.path, hsame, Change.kept?]

namespace Host

/-! ### What a change does to each path -/

/-- the file of a path among files -/
def lookup (files : List OpenFile) (path : String) : Option OpenFile := files.find? (·.isAt path)

theorem lookup_put (f : OpenFile) (files : List OpenFile) (path : String) :
    lookup (put f files) path = if f.isAt path then some f else lookup files path := by
  induction files with
  | nil => cases h : f.isAt path <;> simp [lookup, put, h]
  | cons g files ih =>
    rw [put]
    cases hg : g.isAt f.document.path with
    | true =>
      -- `f` comes in the place of a file of its own path, which is found at the same paths
      have hsame : g.isAt path = f.isAt path := samePath_congr hg path
      cases h : f.isAt path <;> simp [lookup, h, hsame]
    | false =>
      simp only [Bool.false_eq_true, if_false, lookup, List.find?_cons] at ih ⊢
      cases hp : g.isAt path with
      | false => exact ih
      | true =>
        have hne : f.isAt path = false := by
          refine Bool.eq_false_iff.2 fun hf => ?_
          exact Bool.noConfusion (hg.symm.trans (samePath_of_isAt hp hf))
        simp [hne]

theorem lookup_remove (files : List OpenFile) (gone path : String) :
    lookup (files.filter fun f => !f.isAt gone) path =
      if samePath gone path then none else lookup files path := by
  have hboth : ∀ f : OpenFile, f.isAt path = true → f.isAt gone = samePath gone path := by
    intro f hf
    rw [OpenFile.isAt, samePath_congr hf gone, samePath, samePath, Bool.eq_iff_iff]
    simp [eq_comm]
  rw [lookup, lookup, List.find?_filter]
  cases hsame : samePath gone path with
  | true =>
    rw [if_pos rfl, List.find?_eq_none]
    intro f _ hf
    have hf : f.isAt gone = false ∧ f.isAt path = true := by simpa using hf
    exact Bool.noConfusion (hf.1.symm.trans ((hboth f hf.2).trans hsame))
  | false =>
    rw [if_neg Bool.false_ne_true]
    congr 1
    funext f
    cases hf : f.isAt path with
    | false => simp
    | true => simp [hboth f hf, hsame]

/-! ### Building -/

/-- the file is what its path, its text and the schemas make it -/
structure BuiltFrom (f : OpenFile) (path text : String) (schemas : List Schema) : Prop where
  path : f.document.path = path
  tree : f.document.tree = Tree.parse text
  harvest : f.document.harvest = Harvest.ofTree (Tree.parse text)
  registry : f.document.registry =
    .ofSources ((Harvest.ofTree (Tree.parse text)).schema :: schemas ++ [Schema.builtin])
  values : f.document.values = f.document.ownValues f.document.registry
  lines : f.lines = .ofText text

theorem builtFrom_openFile (h : Host) (path text : String) :
    BuiltFrom (h.openFile path text) path text h.schemas := ⟨rfl, rfl, rfl, rfl, rfl, rfl⟩

/-- a file that is given other schemas is as if it had been built with them -/
theorem withSchemas_openFile (h : Host) (path text : String) (schemas : List Schema) :
    { h.openFile path text with
      document := (h.openFile path text).document.withSchemas schemas } =
      openFile { h with schemas := schemas } path text := rfl

/-! ### Runs -/

variable {h : Host} {sdks : SdkLocator} {listing : Listing} {schemas : List Schema}
  {changes : List Change} {files : List OpenFile}

/-- the files are those that the changes leave, each as the host builds it -/
def Holds (h : Host) (changes : List Change) (files : List OpenFile) : Prop :=
  ∀ path, lookup files path = (leftAt? changes path).map fun f => h.openFile f.1 f.2

theorem Holds.put (hf : h.Holds changes files) (name text : String) :
    h.Holds (changes ++ [.set name text]) (Host.put (h.openFile name text) files) := by
  intro path
  have hat : (h.openFile name text).isAt path = samePath name path := rfl
  rw [lookup_put, hat, leftAt?_concat, hf path]
  cases hs : samePath name path <;> simp [Change.path, Change.kept?, hs]

theorem Holds.putAll (hf : h.Holds changes files) (more : List (String × String)) :
    h.Holds (changes ++ more.map fun f => .set f.1 f.2)
      ((more.map fun f => h.openFile f.1 f.2).foldl (fun files f => Host.put f files) files) := by
  induction more generalizing changes files with
  | nil => simpa using hf
  | cons f more ih => simpa using ih (hf.put f.1 f.2)

theorem Holds.remove (hf : h.Holds changes files) (gone : String) :
    h.Holds (changes ++ [.remove gone]) (files.filter fun f => !f.isAt gone) := by
  intro path
  rw [lookup_remove, leftAt?_concat, hf path]
  cases hs : samePath gone path <;> simp [Change.path, Change.kept?, hs]

theorem Holds.withSchemas (hf : h.Holds changes files) (schemas : List Schema) :
    Holds { h with schemas := schemas } changes
      (files.map fun f => { f with document := f.document.withSchemas schemas }) := by
  intro path
  have hat : (fun f : OpenFile => f.isAt path) ∘
      (fun f : OpenFile => { f with document := f.document.withSchemas schemas }) =
        fun f => f.isAt path := rfl
  have hfound := hf path
  rw [lookup] at hfound
  rw [lookup, List.find?_map, hat, hfound, Option.map_map]
  exact congrArg (Option.map · _) (funext fun f => withSchemas_openFile h f.1 f.2 schemas)

/-- the host is what the schemas and the changes lead to -/
structure Follows (sdks : SdkLocator) (listing : Listing) (schemas : List Schema)
    (changes : List Change) (h : Host) : Prop where
  sdks : h.sdks = sdks
  listing : h.listing = listing
  schemas : h.schemas = schemas
  files : h.Holds changes h.files

/-- an edit adds its schemas and its changes to those before -/
theorem follows_apply (hf : Follows sdks listing schemas changes h) (e : Edit) :
    Follows sdks listing (schemas ++ e.schemas) (changes ++ e.changes) (e.apply h) := by
  obtain ⟨rfl, rfl, rfl, hfiles⟩ := hf
  cases e with
  | set path text => exact ⟨rfl, rfl, (List.append_nil _).symm, hfiles.put path text⟩
  | setAll files => exact ⟨rfl, rfl, (List.append_nil _).symm, hfiles.putAll files⟩
  | remove path => exact ⟨rfl, rfl, (List.append_nil _).symm, hfiles.remove path⟩
  | addSchema s =>
    refine ⟨rfl, rfl, rfl, ?_⟩
    rw [Edit.changes, List.append_nil]
    exact hfiles.withSchemas (h.schemas ++ [s])

theorem follows_run (hf : Follows sdks listing schemas changes h) (edits : List Edit) :
    Follows sdks listing (schemas ++ edits.flatMap Edit.schemas)
      (changes ++ edits.flatMap Edit.changes) (h.run edits) := by
  induction edits generalizing h schemas changes with
  | nil => simpa [run] using hf
  | cons e edits ih => simpa [run] using ih (follows_apply hf e)

theorem follows_start (sdks : SdkLocator) (listing : Listing) (config : CompletionConfig) :
    Follows sdks listing [] [] (start sdks listing config) := ⟨rfl, rfl, rfl, fun _ => rfl⟩

/-- After any edits of a new host a path has a file if and only if nothing was done at the path
after a text was set there, and the file is the one that a host which had all the schemas from the
start makes of that text: what the text holds, the schemas in the order in which they were added
between the document's own and the built-in one, the values that follow from these, and the lines
of the text. -/
theorem file?_run (sdks : SdkLocator) (listing : Listing) (config : CompletionConfig)
    (edits : List Edit) (path : String) :
    let h := (start sdks listing config).run edits
    let changes := edits.flatMap Edit.changes
    let schemas := edits.flatMap Edit.schemas
    h.schemas = schemas ∧
      (h.has path = true ↔ ∃ name text, LastSet changes path name text) ∧
      ∀ f, h.file? path = some f ↔ ∃ name text, LastSet changes path name text ∧
        f = openFile { start sdks listing config with schemas := schemas } name text ∧
        BuiltFrom f name text schemas := by
  intro h changes schemas
  obtain ⟨hsdks, hlisting, hschemas, hfiles⟩ :=
    follows_run (follows_start sdks listing config) edits
  have hbuild : ∀ name text, h.openFile name text =
      openFile { start sdks listing config with schemas := schemas } name text := by
    intro name text
    rw [openFile, hsdks, hlisting, hschemas]
    rfl
  have hfile : ∀ f, h.file? path = some f ↔ ∃ name text, LastSet changes path name text ∧
      f = openFile { start sdks listing config with schemas := schemas } name text ∧
      BuiltFrom f name text schemas := by
    intro f
    have hfound : h.file? path = (leftAt? changes path).map fun g => h.openFile g.1 g.2 :=
      hfiles path
    rw [hfound, Option.map_eq_some_iff]
    constructor
    · rintro ⟨⟨name, text⟩, hkept, rfl⟩
      refine ⟨name, text, leftAt?_eq_some.1 hkept, hbuild name text, ?_⟩
      rw [hbuild]
      exact builtFrom_openFile _ name text
    · rintro ⟨name, text, hlast, rfl, -⟩
      exact ⟨(name, text), leftAt?_eq_some.2 hlast, hbuild name text⟩
  refine ⟨hschemas, ?_, hfile⟩
  rw [has, Option.isSome_iff_exists]
  constructor
  · rintro ⟨f, hf⟩
    obtain ⟨name, text, hlast, -⟩ := (hfile f).1 hf
    exact ⟨name, text, hlast⟩
  · rintro ⟨name, text, hlast⟩
    exact ⟨_, (hfile _).2 ⟨name, text, hlast, rfl, builtFrom_openFile _ name text⟩⟩

end Host
end ProjectSense
