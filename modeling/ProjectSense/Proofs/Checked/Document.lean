import ProjectSense.Document.Basic
import ProjectSense.Proofs.Checked.Builder
import ProjectSense.Proofs.Checked.Words

/-!
# Building documents

A text is read as a tree, and what the tree declares is recorded, with every step that can fail.
None does.

* `Checked.harvest?_eq`, `Checked.frameworks?_eq`: what a tree declares.
* `Checked.document?_eq`: the document of a short text.
-/

namespace ProjectSense.Checked

open Text (width)

/-! ### What an element says -/

/-- the text of an element, its entities decoded -/
def textOf? (t : Tree) (id : Nat) : Option String := do
  let texts ← ((t.children id).filterMap t.text?).mapM fun raw => entities? raw.toList
  some (trimmed (String.join (texts.map String.ofList)))

/-- records the values that a condition compares with -/
def addCondition? (h : Harvest) (condition : String) : Option Harvest := do
  let compared ← comparisons? condition.toList
  some (compared.foldl (fun h (name, value) => h.declare name value) h)

/-- records what one element says: only properties have texts that are decoded -/
def addElement? (h : Harvest) (t : Tree) (id : Nat) (rule : ElementRule) (e : Element) :
    Option Harvest :=
  match rule.construct with
  | .property => (textOf? t id).map (h.addProperty e.name)
  | _ => some (h.addElement t id rule e)

/-- records an element: its condition, then what it says -/
def visit? (t : Tree) (h : Harvest) (entry : Nat × ElementRule) : Option Harvest :=
  match t.element? entry.1 with
  | none => some h
  | some e => do
    let h ← match e.value? "Condition" with
      | some condition => addCondition? h condition
      | none => some h
    addElement? h t entry.1 entry.2 e

theorem textOf?_eq (t : Tree) (id : Nat) : textOf? t id = some (Harvest.textOf t id) := by
  have htexts : ((t.children id).filterMap t.text?).map decodeEntities =
      (t.children id).filterMap fun c => (t.text? c).map decodeEntities := List.map_filterMap
  rw [textOf?, mapM_of_eq fun raw : String => entities?_eq raw.toList, Harvest.textOf, ← htexts]
  simp only [Option.bind_eq_bind, Option.bind_some, List.map_map]
  rfl

theorem addCondition?_eq (h : Harvest) (condition : String) :
    addCondition? h condition = some (h.addCondition condition) := by
  rw [addCondition?, comparisons?_eq]
  rfl

theorem addElement?_eq (h : Harvest) (t : Tree) (id : Nat) (rule : ElementRule) (e : Element) :
    addElement? h t id rule e = some (h.addElement t id rule e) := by
  unfold addElement?
  split
  · next hconstruct =>
    rw [textOf?_eq, Harvest.addElement, hconstruct]
    rfl
  · rfl

theorem visit?_eq (t : Tree) (h : Harvest) (entry : Nat × ElementRule) :
    visit? t h entry = some (Harvest.visit t h entry) := by
  rw [visit?, Harvest.visit]
  cases t.element? entry.1 with
  | none => rfl
  | some e =>
    simp only
    cases e.value? "Condition" <;>
      simp only [addCondition?_eq, addElement?_eq, Option.bind_eq_bind, Option.bind_some]

/-! ### What a document says -/

/-- everything that the elements of a tree declare -/
def harvest? (t : Tree) : Option Harvest :=
  match Harvest.projectRoot? t with
  | some root => (Harvest.ruled t root Grammar.project).foldlM (visit? t) .empty
  | none => some .empty

/-- the frameworks that the document targets -/
def frameworks? (h : Harvest) : Option (List Framework) := do
  let found ← (h.values.valuesOf "TargetFramework").mapM framework?
  some (found.filterMap id)

/-- a text alone, without schemas and surroundings, with the frameworks that it targets -/
def document? (path text : String) : Option (Document.Basis × List Framework) := do
  let tree ← tree? text
  let harvest ← harvest? tree
  let frameworks ← frameworks? harvest
  some (⟨path, tree, harvest, [], none, fun _ => none, .empty⟩, frameworks)

theorem harvest?_eq (t : Tree) : harvest? t = some (Harvest.ofTree t) := by
  have hvisit : visit? t = fun h entry => pure (Harvest.visit t h entry) :=
    funext fun h => funext fun entry => visit?_eq t h entry
  rw [harvest?, Harvest.ofTree]
  cases Harvest.projectRoot? t with
  | none => rfl
  | some root =>
    simp only [hvisit, List.foldlM_pure]
    rfl

theorem frameworks?_eq (h : Harvest) : frameworks? h = some h.frameworks := by
  rw [frameworks?, Harvest.frameworks, mapM_of_eq framework?_eq]
  simp only [Option.bind_eq_bind, Option.bind_some, List.filterMap_map, Function.id_comp]

/-- reading a short text, whether it is well-formed or not, cannot fail -/
theorem document?_eq {text : String} (hw : width text.toList < UInt32.size) (path : String) :
    document? path text =
      some (Document.parse path text, (Document.parse path text).harvest.frameworks) := by
  rw [document?, tree?_eq hw]
  simp only [Option.bind_eq_bind, Option.bind_some, harvest?_eq, frameworks?_eq, Document.parse]

end ProjectSense.Checked
