import Mathlib.Data.List.Forall2
import ProjectSense.Proofs.Schema.Precedence
import ProjectSense.Proofs.Text.NameMap

/-!
# What a schema keeps of its file

Every entry of a file becomes a declaration of its name.  The keys of a file are different if they
differ in case, but names are not: of several items of one name each keeps its declaration, and the
last one takes the place of all others with its metadata.

* `forall₂_of_mapM_ok`: what a traversal makes of each entry.
* `Schema.spellings_under`: what is listed under a name.
* `Schema.finds_ofFile`: what is found of the entries of a file.
-/

namespace ProjectSense

/-! ### Steps that may fail -/

theorem exists_of_bind_ok {α β ε : Type} {x : Except ε α} {f : α → Except ε β} {b : β}
    (h : x >>= f = .ok b) : ∃ a, x = .ok a ∧ f a = .ok b := by
  cases x with
  | error e => cases h
  | ok a => exact ⟨a, rfl, h⟩

/-- every element is turned into what stands in its place -/
theorem forall₂_of_mapM_ok {α β ε : Type} {f : α → Except ε β} {l : List α} {bs : List β}
    (h : l.mapM f = .ok bs) : List.Forall₂ (fun a b => f a = .ok b) l bs := by
  induction l generalizing bs with
  | nil =>
    obtain rfl : [] = bs := Except.ok.inj h
    exact .nil
  | cons a l ih =>
    rw [List.mapM_cons] at h
    obtain ⟨b, hb, h⟩ := exists_of_bind_ok h
    obtain ⟨rest, hrest, h⟩ := exists_of_bind_ok h
    obtain rfl : b :: rest = bs := Except.ok.inj h
    exact .cons hb (ih hrest)

/-- what every element is turned into, all of the list is -/
theorem forall_of_mapM_ok {α β ε : Type} {f : α → Except ε β} {P : β → Prop} {l : List α}
    {bs : List β} (hf : ∀ a ∈ l, ∀ b, f a = .ok b → P b) (h : l.mapM f = .ok bs) :
    ∀ b ∈ bs, P b := by
  have hmade := forall₂_of_mapM_ok h
  clear h
  induction hmade with
  | nil => simp
  | cons hb _ ih =>
    obtain ⟨ha, hl⟩ := List.forall_mem_cons.1 hf
    exact List.forall_mem_cons.2 ⟨ha _ hb, ih hl⟩

/-! ### The entries of a file -/

/-- there is a declaration of the name -/
def Finds {Facts : Type} (ds : List (Declared Facts)) (name : String) : Prop :=
  ∃ d, lookUp name ds = some d ∧ d.name.spelledBy name = true

/-- the last of the entries with that name -/
def lastNamed? (entries : List (String × Entry)) (name : String) : Option (String × Entry) :=
  entries.reverse.find? fun e => sameName e.1 name

/-- the names that the last entry with that name lists -/
def listed (inner : Entry → List (String × Entry)) (entries : List (String × Entry))
    (name : String) : List String :=
  ((lastNamed? entries name).map fun e => (inner e.2).map (·.1)).getD []

namespace Schema

variable {Facts More : Type} {source : Provenance} {entry : Entry}

theorem finds_iff {ds : List (Declared Facts)} {name : String} :
    Finds ds name ↔ ∃ n ∈ spellings ds, sameName n name = true := by
  constructor
  · rintro ⟨d, hd, hname⟩
    exact ⟨_, List.mem_map_of_mem (List.mem_of_find?_eq_some hd), hname⟩
  · rintro ⟨n, hn, hname⟩
    obtain ⟨e, he, rfl⟩ := List.mem_map.1 hn
    obtain ⟨d, hd⟩ := Option.ne_none_iff_exists'.1
      ((exists_spelledBy_iff name ds).1 ⟨e, he, hname⟩)
    exact ⟨d, hd, spelledBy_of_lookUp hd⟩

/-! ### One entry -/

theorem name_typed {d d' : Declared Facts} (h : typed d entry = .ok d') : d'.name = d.name := by
  obtain ⟨kind, -, hd⟩ := exists_of_bind_ok h
  obtain rfl := Except.ok.inj hd
  rfl

/-- what is made of entries has their names if each has the name of its entry -/
theorem spellings_of_forall₂ {entries : List (String × Entry)} {ds : List (Declared Facts)}
    (h : List.Forall₂ (fun e d => d.name = ⟨e.1⟩) entries ds) :
    spellings ds = entries.map (·.1) := by
  induction h with
  | nil => rfl
  | cons hname _ ih =>
    simp only [spellings, List.map_cons] at ih ⊢
    rw [ih, hname]

theorem spellings_of_mapM {f : String × Entry → Except SchemaError (Declared Facts)}
    (hf : ∀ e d, f e = .ok d → d.name = ⟨e.1⟩) {entries : List (String × Entry)}
    {ds : List (Declared Facts)} (h : entries.mapM f = .ok ds) :
    spellings ds = entries.map (·.1) :=
  spellings_of_forall₂ ((forall₂_of_mapM_ok h).imp hf)

/-- an entry with what it lists: a declaration of its name, and one of each name that is listed -/
def Makes (inner : Entry → List (String × Entry)) (e : String × Entry)
    (made : Declared Facts × List (Declared More)) : Prop :=
  made.1.name = ⟨e.1⟩ ∧ spellings made.2 = (inner e.2).map (·.1)

theorem makes_fileItem {e : String × Entry} {made : ItemDecl × List MetadataDecl}
    (h : fileItem source e = .ok made) : Makes (·.metadata) e made := by
  obtain ⟨name, entry⟩ := e
  obtain ⟨item, hitem, h⟩ := exists_of_bind_ok h
  obtain ⟨metadata, hmetadata, h⟩ := exists_of_bind_ok h
  obtain rfl := Except.ok.inj h
  exact ⟨name_typed hitem, spellings_of_mapM (fun _ _ hm => name_typed hm) hmetadata⟩

theorem makes_fileTask {e : String × Entry} {made : TaskDecl × List ParameterDecl}
    (h : fileTask source e = .ok made) : Makes (·.parameters) e made := by
  obtain ⟨name, entry⟩ := e
  obtain ⟨parameters, hparameters, h⟩ := exists_of_bind_ok h
  obtain rfl := Except.ok.inj h
  exact ⟨rfl, spellings_of_mapM (fun _ _ hp => name_typed hp) hparameters⟩

/-! ### What is listed under a name -/

variable {inner : Entry → List (String × Entry)} {entries : List (String × Entry)}
  {made : List (Declared Facts × List (Declared More))}

theorem spellings_of_makes (h : List.Forall₂ (Makes inner) entries made) :
    spellings (made.map (·.1)) = entries.map (·.1) :=
  spellings_of_forall₂ (List.forall₂_map_right_iff.2 (h.imp fun _ _ hmakes => hmakes.1))

/-- where nothing but entries of the names is made, every entry is found -/
theorem finds_of_spellings {ds : List (Declared Facts)} (h : spellings ds = entries.map (·.1)) :
    ∀ e ∈ entries, Finds ds e.1 := fun e he =>
  finds_iff.2 ⟨e.1, h ▸ List.mem_map_of_mem he, sameName_refl e.1⟩

/-- the declarations that stand under a name -/
def under (made : List (Declared Facts × List (Declared More))) (name : String) :
    List (Declared More) :=
  ((NameMap.ofList (made.map fun p => (p.1.name, p.2))).find? ⟨name⟩).getD []

/-- what stands under a name is what the last entry with that name lists -/
theorem spellings_under (h : List.Forall₂ (Makes inner) entries made) (name : String) :
    spellings (under made name) = listed inner entries name := by
  have hreversed : List.Forall₂ (Makes inner) entries.reverse made.reverse :=
    List.forall₂_reverse_iff.2 h
  rw [under, NameMap.find?_ofList, listed, lastNamed?, ← List.map_reverse]
  generalize entries.reverse = es, made.reverse = ms at hreversed ⊢
  induction hreversed with
  | nil => rfl
  | @cons e p _ _ hmakes _ ih =>
    have hname : Name.same p.1.name ⟨name⟩ = sameName e.1 name := by
      rw [hmakes.1]
      rfl
    rw [List.map_cons, List.find?_cons, List.find?_cons, hname]
    cases sameName e.1 name with
    | true => exact hmakes.2
    | false => exact ih

theorem finds_under (h : List.Forall₂ (Makes inner) entries made) (name other : String) :
    Finds (under made name) other ↔
      ∃ n ∈ listed inner entries name, sameName n other = true := by
  rw [finds_iff, spellings_under h]

/-- the last entry of a name keeps all that it lists -/
theorem finds_under_last (h : List.Forall₂ (Makes inner) entries made) {e : String × Entry}
    (hlast : lastNamed? entries e.1 = some e) : ∀ m ∈ inner e.2, Finds (under made e.1) m.1 := by
  intro m hm
  refine (finds_under h e.1 m.1).2 ⟨m.1, ?_, sameName_refl m.1⟩
  rw [listed, hlast]
  exact List.mem_map_of_mem hm

/-! ### The whole file -/

/-- Every entry of a file that loads is found under its name.  Metadata of an item are found where
the last item of its name lists them, and so they all are where no later item has the same name;
likewise the parameters of tasks. -/
theorem finds_ofFile {name : String} {file : SchemaFile} {s : Schema}
    (h : ofFile name file = .ok s) :
    ((∀ e ∈ file.properties, Finds s.properties e.1) ∧ (∀ e ∈ file.items, Finds s.items e.1) ∧
        (∀ e ∈ file.tasks, Finds s.tasks e.1) ∧ ∀ e ∈ file.targets, Finds s.targets e.1) ∧
      (∀ item other, Finds (s.metadataOf item) other ↔
        ∃ n ∈ listed (·.metadata) file.items item, sameName n other = true) ∧
      (∀ task other, Finds (s.parametersOf task) other ↔
        ∃ n ∈ listed (·.parameters) file.tasks task, sameName n other = true) ∧
      (∀ e ∈ file.items, lastNamed? file.items e.1 = some e →
        ∀ m ∈ e.2.metadata, Finds (s.metadataOf e.1) m.1) ∧
      ∀ e ∈ file.tasks, lastNamed? file.tasks e.1 = some e →
        ∀ p ∈ e.2.parameters, Finds (s.parametersOf e.1) p.1 := by
  obtain ⟨properties, hproperties, h⟩ := exists_of_bind_ok h
  obtain ⟨items, hitems, h⟩ := exists_of_bind_ok h
  obtain ⟨tasks, htasks, h⟩ := exists_of_bind_ok h
  obtain rfl := Except.ok.inj h
  have hmadeItems := (forall₂_of_mapM_ok hitems).imp fun _ _ => makes_fileItem
  have hmadeTasks := (forall₂_of_mapM_ok htasks).imp fun _ _ => makes_fileTask
  refine ⟨⟨finds_of_spellings (spellings_of_mapM (fun _ _ hp => name_typed hp) hproperties),
    finds_of_spellings (spellings_of_makes hmadeItems),
    finds_of_spellings (spellings_of_makes hmadeTasks), finds_of_spellings ?_⟩,
    finds_under hmadeItems, finds_under hmadeTasks, fun _ _ => finds_under_last hmadeItems,
    fun _ _ => finds_under_last hmadeTasks⟩
  rw [spellings, List.map_map]
  rfl

/-- lists metadata of an item in two places, under two spellings of its name -/
def respelledFile : SchemaFile :=
  let plain := Entry.mk "" none false false false [] []
  { properties := []
    items := [("Foo", .mk "" none false false false [("A", plain)] []),
      ("Bar", .mk "" none false false false [("B", plain)] []),
      ("foo", .mk "" none false false false [("C", plain)] [])]
    tasks := []
    targets := []
    configurations := []
    platforms := [] }

/-- what the last item of each name lists is found under every spelling, and no more -/
theorem finds_ofFile_respelled : ∃ s, ofFile "s" respelledFile = .ok s ∧
    Finds (s.metadataOf "Bar") "B" ∧ Finds (s.metadataOf "FOO") "c" ∧
      ¬Finds (s.metadataOf "Foo") "A" := by
  have hfile : ∃ s, ofFile "s" respelledFile = .ok s := ⟨_, rfl⟩
  obtain ⟨s, hs⟩ := hfile
  obtain ⟨-, hmetadata, -, hlast, -⟩ := finds_ofFile hs
  refine ⟨s, hs, ?_, (hmetadata "FOO" "c").2 (by decide), fun h => ?_⟩
  · exact hlast _ (List.mem_cons_of_mem _ List.mem_cons_self) rfl _ List.mem_cons_self
  · exact absurd ((hmetadata "Foo" "A").1 h) (by decide)

/-- an item that is spelled in two ways loses the metadata that only the first one lists -/
theorem metadata_respelled :
    let text := "\x7b\"items\": \x7b\"Foo\": \x7b\"metadata\": \x7b\"A\": \"\"\x7d\x7d, " ++
      "\"foo\": \x7b\x7d\x7d\x7d"
    ∃ file ∈ SchemaFile.parse? text, ∃ s ∈ (ofFile "s" file).toOption,
      ∃ e ∈ file.items, ∃ m ∈ e.2.metadata, lookUp m.1 (s.metadataOf e.1) = none := by
  decide +kernel

end Schema
end ProjectSense
