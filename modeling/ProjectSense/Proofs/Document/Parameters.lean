import ProjectSense.Proofs.Document.Consistent
import ProjectSense.Proofs.Document.Names

/-!
# The parameters that a document records

Invocations of a task give its parameters, or take them as outputs, and registrations of the task
declare them.  A parameter that is once taken stays an output, but a declaration goes over all that
was said before it.

* `Tree.mentions`: how elements speak of a parameter, by what the grammar takes them for.
* `Harvest.output?_ofTree`: what comes of all mentions in document order.
* `Harvest.output_ofTree`: which parameters are outputs.
* `Harvest.parameter_ofTree`: the open attributes of every invocation are recorded.
-/

namespace ProjectSense

/-! ### Mentions of a parameter -/

/-- how an element speaks of a parameter -/
inductive Mention where
  /-- an attribute of an invocation -/
  | given
  /-- an output of an invocation -/
  | taken
  /-- an entry in a parameter group, which may say that the parameter is an output -/
  | declared (output : Bool)
deriving DecidableEq, Repr

namespace Mention

/-- whether the parameter is said to be an output -/
def isOutput : Mention → Bool
  | given => false
  | taken => true
  | declared output => output

def isDeclared : Mention → Bool
  | declared _ => true
  | _ => false

/-- whether a parameter is an output after one more mention; without any it is not recorded -/
def note : Option Bool → Mention → Option Bool
  | known, given => some (known.getD false)
  | _, taken => some true
  | _, declared output => some output

/-- the last declaration, or a mention after it, says that the parameter is an output -/
def Marked (ms : List Mention) : Prop :=
  ∃ m after, m :: after <:+ ms ∧ m.isOutput = true ∧ ∀ later ∈ after, later.isDeclared = false

theorem marked_cons {m : Mention} {ms : List Mention} : Marked (m :: ms) ↔
    Marked ms ∨ m.isOutput = true ∧ ∀ later ∈ ms, later.isDeclared = false := by
  constructor
  · rintro ⟨m', after, hsuffix, hmark⟩
    rcases List.suffix_cons_iff.1 hsuffix with heq | hsuffix
    · obtain ⟨rfl, rfl⟩ := List.cons.inj heq
      exact .inr hmark
    · exact .inl ⟨m', after, hsuffix, hmark⟩
  · rintro (⟨m', after, hsuffix, hmark⟩ | hmark)
    · exact ⟨m', after, hsuffix.trans (List.suffix_cons m ms), hmark⟩
    · exact ⟨m, ms, List.suffix_rfl, hmark⟩

theorem isSome_foldl_note (known : Option Bool) (ms : List Mention) :
    (ms.foldl note known).isSome = (known.isSome || !ms.isEmpty) := by
  induction ms generalizing known with
  | nil => simp
  | cons m ms ih =>
    rw [List.foldl_cons, ih]
    cases m <;> simp [note]

theorem getD_foldl_note (known : Option Bool) (ms : List Mention) :
    (ms.foldl note known).getD false = true ↔
      Marked ms ∨ known.getD false = true ∧ ∀ m ∈ ms, m.isDeclared = false := by
  induction ms generalizing known with
  | nil => simp [Marked]
  | cons m ms ih =>
    have hnote : (note known m).getD false = true ↔
        m.isOutput = true ∨ known.getD false = true ∧ m.isDeclared = false := by
      cases m <;> simp [note, isOutput, isDeclared]
    rw [List.foldl_cons, ih, hnote, marked_cons, List.forall_mem_cons]
    tauto

/-- where no declaration takes a mark back, one mark is enough -/
theorem marked_iff_exists {ms : List Mention}
    (h : ms.Pairwise fun m later => m.isOutput = true → later ≠ .declared false) :
    Marked ms ↔ ∃ m ∈ ms, m.isOutput = true := by
  constructor
  · rintro ⟨m, after, hsuffix, hmark, -⟩
    exact ⟨m, hsuffix.subset List.mem_cons_self, hmark⟩
  · induction ms with
    | nil => simp
    | cons m ms ih =>
      obtain ⟨hm, hms⟩ := List.pairwise_cons.1 h
      rintro ⟨m', hm', hmark⟩
      by_cases hlater : ∃ m ∈ ms, m.isOutput = true
      · exact marked_cons.2 (.inl (ih hms hlater))
      -- the first of them is the only one that marks the parameter
      rcases List.mem_cons.1 hm' with rfl | hm'
      · refine marked_cons.2 (.inr ⟨hmark, fun later hmem => ?_⟩)
        cases later with
        | declared output =>
          cases output with
          | true => exact absurd ⟨_, hmem, rfl⟩ hlater
          | false => exact absurd rfl (hm _ hmem hmark)
        | _ => rfl
      · exact absurd ⟨m', hm', hmark⟩ hlater

end Mention

open Harvest in
/-- how an element speaks of a parameter of a task -/
def Tree.mentions (t : Tree) (task name : String) (id : Nat) : List Mention :=
  match t.rule? id, t.element? id with
  | some rule, some e =>
    match rule.construct with
    | .task =>
      if e.isNamed task ∧ name ≠ "" then
        ((openAttributes rule e).filter (sameName · name)).map (fun _ => .given) ++
          ((outputNames t id).filter (sameName · name)).map (fun _ => .taken)
      else []
    | .usingTask =>
      if ((e.value? "TaskName").map shortTaskName).any (sameName · task) ∧ task ≠ "" then
        ((groupParameters t id).filter (·.isNamed name)).map fun p => .declared (flag p "Output")
      else []
    | _ => []
  | _, _ => []

namespace Harvest

variable {h : Harvest} {task name : String}

/-- the parameter that is recorded for a task -/
def parameter? (h : Harvest) (task name : String) : Option ParameterDecl :=
  h.parameters.find? ⟨task⟩ >>= (·.find? ⟨name⟩)

/-- whether the parameter is an output, if it is recorded -/
def output? (h : Harvest) (task name : String) : Option Bool :=
  (h.parameter? task name).map (·.facts.output)

/-- what is recorded is what the schema of the document has under the name -/
theorem lookUp_parametersOf (hh : h.Consistent) (task name : String) :
    lookUp name (h.schema.parametersOf task) = h.parameter? task name := by
  change lookUp name (((h.parameters.map NameMap.values).find? ⟨task⟩).getD []) = _
  rw [NameMap.find?_map, parameter?]
  cases hfind : h.parameters.find? ⟨task⟩ with
  | none => rfl
  | some m =>
    obtain ⟨key, -, hm⟩ := hh.parameters.of_find? hfind
    have hlabelled : m.Labelled := ⟨hm.apart, fun e he => (hm.all e he).1⟩
    exact hlabelled.lookUp_values name

/-! ### Recording -/

theorem parameter?_upsert (h : Harvest) (task name : String) (fresh : ParameterDecl)
    (change : ParameterDecl → ParameterDecl) (task' name' : String) :
    (h.changeParameters task fun m => m.upsert ⟨name⟩ fresh change).parameter? task' name' =
      if sameName task task' ∧ sameName name name' then
        some (((h.parameter? task' name').map change).getD fresh)
      else h.parameter? task' name' := by
  have htask : Name.same ⟨task⟩ ⟨task'⟩ = sameName task task' := rfl
  have hname : Name.same ⟨name⟩ ⟨name'⟩ = sameName name name' := rfl
  have hempty : (NameMap.empty : NameMap ParameterDecl).find? ⟨name'⟩ = none := rfl
  simp only [parameter?, changeParameters, NameMap.find?_upsert, htask]
  by_cases ht : sameName task task' = true
  · rw [if_pos ht]
    cases h.parameters.find? ⟨task'⟩ with
    | none => simp [NameMap.find?_upsert, hname, ht, hempty]
    | some m => simp [NameMap.find?_upsert, hname, ht]
  · rw [if_neg ht, if_neg fun hboth => ht hboth.1]

/-- what a record says of a parameter -/
def Record.mention? (task name : String) : Record → Option Mention
  | .use task' name' output =>
    if sameName task' task ∧ sameName name' name ∧ name' ≠ "" then
      some (if output then .taken else .given)
    else none
  | .parameter task' e =>
    if sameName task' task ∧ sameName e.name name then some (.declared (flag e "Output"))
    else none
  | _ => none

theorem output?_of_eq {h' : Harvest} (hp : h'.parameters = h.parameters) :
    h'.output? task name = h.output? task name := by
  rw [output?, parameter?, hp]
  rfl

theorem output?_addParameter (h : Harvest) (task' name' : String) (output : Bool) :
    (h.addParameter task' name' output).output? task name =
      if sameName task' task ∧ sameName name' name ∧ name' ≠ "" then
        Mention.note (h.output? task name) (if output then .taken else .given)
      else h.output? task name := by
  rw [addParameter]
  by_cases hempty : name' = ""
  · rw [if_pos (by simpa using hempty), if_neg (by simp [hempty])]
  · rw [if_neg (by simpa using hempty), output?, parameter?_upsert]
    by_cases hsame : sameName task' task ∧ sameName name' name
    · rw [if_pos hsame, if_pos ⟨hsame.1, hsame.2, hempty⟩, output?]
      cases h.parameter? task name <;> cases output <;> simp [Mention.note, Declared.parameter]
    · rw [if_neg hsame, if_neg fun hall => hsame ⟨hall.1, hall.2.1⟩]
      rfl

theorem output?_declareParameter (h : Harvest) (task' : String) (e : Element) :
    (h.declareParameter task' e).output? task name =
      if sameName task' task ∧ sameName e.name name then some (flag e "Output")
      else h.output? task name := by
  rw [declareParameter, output?]
  simp only [NameMap.insert]
  rw [parameter?_upsert]
  by_cases hsame : sameName task' task ∧ sameName e.name name
  · rw [if_pos hsame, if_pos hsame]
    cases h.parameter? task name <;> rfl
  · rw [if_neg hsame, if_neg hsame]
    rfl

/-- a record notes what it says of the parameter -/
theorem output?_apply (h : Harvest) (task name : String) (record : Record) :
    (h.apply record).output? task name = match record.mention? task name with
      | some m => Mention.note (h.output? task name) m
      | none => h.output? task name := by
  cases record with
  | value name value =>
    obtain ⟨values, heq⟩ := exists_apply_value h name value
    exact output?_of_eq (by rw [heq])
  | offer name value =>
    obtain ⟨values, declared, heq⟩ := exists_apply_offer h name value
    exact output?_of_eq (by rw [heq])
  | target name =>
    obtain ⟨targets, heq⟩ := exists_apply_target h name
    exact output?_of_eq (by rw [heq])
  | use task' name' output =>
    rw [apply, output?_addParameter, Record.mention?]
    split <;> rfl
  | parameter task' e =>
    rw [apply, output?_declareParameter, Record.mention?]
    split <;> rfl
  | _ => rfl

theorem output?_foldl (h : Harvest) (rs : List Record) :
    (rs.foldl apply h).output? task name =
      (rs.filterMap (Record.mention? task name)).foldl Mention.note (h.output? task name) := by
  induction rs generalizing h with
  | nil => rfl
  | cons record rs ih =>
    rw [List.foldl_cons, ih, output?_apply, List.filterMap_cons]
    cases record.mention? task name <;> rfl

/-! ### The mentions of an element -/

variable {t : Tree} {id : Nat} {rule : ElementRule} {e : Element}

theorem mentions_map {α : Type} {f : α → Record} (l : List α)
    (hf : ∀ a, (f a).mention? task name = none) :
    (l.map f).filterMap (Record.mention? task name) = [] :=
  List.filterMap_eq_nil_iff.2 (List.forall_mem_map.2 fun a _ => hf a)

/-- an invocation mentions the names that it gives or takes, each that is not empty -/
theorem mentions_use (task' : String) (names : List String) (output : Bool) :
    (names.map (Record.use task' · output)).filterMap (Record.mention? task name) =
      if sameName task' task ∧ name ≠ "" then
        (names.filter (sameName · name)).map fun _ => if output then .taken else .given
      else [] := by
  induction names with
  | nil => simp
  | cons name' names ih =>
    rw [List.map_cons, List.filterMap_cons, ih, List.filter_cons, Record.mention?]
    by_cases hsame : sameName name' name = true
    · have hempty : name' ≠ "" ↔ name ≠ "" := not_congr (eq_empty_congr hsame)
      simp only [hsame, hempty, true_and, if_true, List.map_cons]
      by_cases hboth : sameName task' task = true ∧ name ≠ ""
      · simp only [if_pos hboth]
      · simp only [if_neg hboth]
    · simp [hsame]

theorem mentions_parameter (task' : String) (es : List Element) :
    (es.map (Record.parameter task')).filterMap (Record.mention? task name) =
      if sameName task' task then
        (es.filter (·.isNamed name)).map fun p => .declared (flag p "Output")
      else [] := by
  induction es with
  | nil => simp
  | cons p es ih =>
    rw [List.map_cons, List.filterMap_cons, ih, List.filter_cons, Record.mention?, Element.isNamed]
    by_cases hsame : sameName p.name name = true
    · simp only [hsame, and_true, if_true, List.map_cons]
      by_cases htask : sameName task' task = true
      · simp only [if_pos htask]
      · simp only [if_neg htask]
    · simp [hsame]

theorem mentions_ofProperty (name' text : String) :
    (Record.ofProperty name' text).filterMap (Record.mention? task name) = [] := by
  have hplural : (Record.ofPlural name' text).filterMap (Record.mention? task name) = [] := by
    rw [Record.ofPlural]
    split
    · split
      · exact mentions_map _ fun _ => rfl
      · rfl
    · rfl
  rw [Record.ofProperty, List.filterMap_cons, List.filterMap_append, hplural]
  rfl

theorem mentions_ofUsingTask (t : Tree) (id : Nat) (e : Element) :
    (Record.ofUsingTask t id e).filterMap (Record.mention? task name) =
      if ((e.value? "TaskName").map shortTaskName).any (sameName · task) ∧ task ≠ "" then
        ((groupParameters t id).filter (·.isNamed name)).map fun p => .declared (flag p "Output")
      else [] := by
  rw [Record.ofUsingTask]
  cases (e.value? "TaskName").map shortTaskName with
  | none => simp
  | some short =>
    dsimp only [Option.any_some]
    by_cases hshort : short = ""
    · have hnot : ¬ (sameName short task = true ∧ task ≠ "") :=
        fun h => h.2 ((eq_empty_congr h.1).1 hshort)
      rw [if_pos (by simpa using hshort), if_neg hnot]
      rfl
    · rw [if_neg (by simpa using hshort), List.filterMap_cons_none rfl, mentions_parameter]
      by_cases hsame : sameName short task = true
      · simp [hsame, mt (eq_empty_congr hsame).2 hshort]
      · simp [hsame]

theorem mentions_ofInvocation (t : Tree) (id : Nat) (rule : ElementRule) (e : Element) :
    (Record.ofInvocation t id rule e).filterMap (Record.mention? task name) =
      if e.isNamed task ∧ name ≠ "" then
        ((openAttributes rule e).filter (sameName · name)).map (fun _ => .given) ++
          ((outputNames t id).filter (sameName · name)).map (fun _ => .taken)
      else [] := by
  rw [Record.ofInvocation, List.filterMap_cons, List.filterMap_append, mentions_use, mentions_use,
    Element.isNamed]
  by_cases hboth : sameName e.name task = true ∧ name ≠ ""
  · simp only [Record.mention?, if_pos hboth, if_true, Bool.false_eq_true, if_false]
  · simp only [Record.mention?, if_neg hboth, List.append_nil]

/-- what the records of an element say of a parameter are the mentions of the element -/
theorem mentions_recordsAt (t : Tree) (task name : String) (id : Nat) :
    (recordsAt t id).filterMap (Record.mention? task name) = t.mentions task name id := by
  rw [recordsAt, Tree.mentions]
  cases t.rule? id with
  | none => rfl
  | some rule =>
    dsimp only
    rw [records]
    cases t.element? id with
    | none => rfl
    | some e =>
      have hcondition : ((e.value? "Condition").toList.flatMap Record.ofCondition).filterMap
          (Record.mention? task name) = [] := by
        rw [List.filterMap_flatMap]
        exact List.flatMap_eq_nil_iff.2 fun _ _ => mentions_map _ fun _ => rfl
      dsimp only
      rw [List.filterMap_append, hcondition, List.nil_append, Record.ofElement]
      cases rule.construct <;> dsimp only
      case property => exact mentions_ofProperty e.name (textOf t id)
      case item | itemDefinition =>
        rw [List.filterMap_cons]
        exact mentions_map _ fun _ => rfl
      case metadata => exact mentions_map _ fun _ => rfl
      case target => exact mentions_map _ fun _ => rfl
      case usingTask => exact mentions_ofUsingTask t id e
      case task => exact mentions_ofInvocation t id rule e
      all_goals rfl

/-! ### Every document -/

/-- what is recorded of a parameter comes of all that is said of it, in document order -/
theorem output?_ofTree (hl : t.Linked) (task name : String) :
    (ofTree t).output? task name =
      (t.projectElements.flatMap (t.mentions task name)).foldl Mention.note none := by
  rw [ofTree_eq_foldl hl, output?_foldl, List.filterMap_flatMap]
  simp only [mentions_recordsAt]
  rfl

/-- the open attributes of an invocation are parameters that the document declares for the task -/
theorem parameter_ofTree (hl : t.Linked) (hid : id ∈ t.projectElements)
    (hr : t.rule? id = some rule) (he : t.element? id = some e) (hc : rule.construct = .task)
    (hmem : name ∈ openAttributes rule e) (hn : name ≠ "") :
    ∃ d ∈ (ofTree t).schema.parametersOf e.name, d.name.spelledBy name = true := by
  have hgiven : Mention.given ∈ t.mentions e.name name id := by
    have hnamed : e.isNamed e.name = true := sameName_refl e.name
    simp only [Tree.mentions, hr, he, hc, if_pos (And.intro hnamed hn)]
    exact List.mem_append_left _
      (List.mem_map_of_mem (List.mem_filter.2 ⟨hmem, sameName_refl name⟩))
  have hrecorded : ((ofTree t).parameter? e.name name).isSome := by
    rw [← Option.isSome_map, ← output?, output?_ofTree hl, Mention.isSome_foldl_note]
    simpa using ⟨id, hid, List.ne_nil_of_mem hgiven⟩
  obtain ⟨d, hd⟩ := Option.isSome_iff_exists.1 hrecorded
  rw [← lookUp_parametersOf (consistent_ofTree t)] at hd
  exact ⟨d, List.mem_of_find?_eq_some hd, spelledBy_of_lookUp hd⟩

/-- A parameter is recorded for a task where it is mentioned.  It is an output where the last
declaration of it, or a mention after that, says so; where no declaration takes back what was said
before it, that is where any mention says so. -/
theorem output_ofTree (text task name : String) :
    let t := Tree.parse text
    let found := lookUp name ((ofTree t).schema.parametersOf task)
    let ms := t.projectElements.flatMap (t.mentions task name)
    (found.isSome ↔ ms ≠ []) ∧ (found.any (·.facts.output) ↔ Mention.Marked ms) ∧
      ((ms.Pairwise fun m later => m.isOutput = true → later ≠ .declared false) →
        (found.any (·.facts.output) ↔ ∃ m ∈ ms, m.isOutput = true)) := by
  intro t found ms
  have hnoted : found.map (·.facts.output) = ms.foldl Mention.note none := by
    have houtput := output?_ofTree (Tree.linked_parse text) task name
    rwa [output?, ← lookUp_parametersOf (consistent_ofTree t)] at houtput
  have hmarked : found.any (·.facts.output) ↔ Mention.Marked ms := by
    have hany : found.any (·.facts.output) = (found.map (·.facts.output)).getD false := by
      cases found <;> rfl
    rw [hany, hnoted, Mention.getD_foldl_note]
    simp
  refine ⟨?_, hmarked, fun h => hmarked.trans (Mention.marked_iff_exists h)⟩
  rw [← Option.isSome_map, hnoted, Mention.isSome_foldl_note]
  simp

/-- a parameter that is declared as an output first, then given -/
theorem output_ofTree_declared :
    let t := Tree.parse ("<Project><UsingTask TaskName='Frob'><ParameterGroup><P Output='True'/>" ++
      "</ParameterGroup></UsingTask><Target><Frob P='x'/></Target></Project>")
    let ms := t.projectElements.flatMap (t.mentions "Frob" "P")
    (ms.Pairwise fun m later => m.isOutput = true → later ≠ .declared false) ∧
      (lookUp "P" ((ofTree t).schema.parametersOf "Frob")).any (·.facts.output) = true := by
  intro t ms
  have hms : ms = [.declared true, .given] := by decide +kernel
  have hpairwise : ms.Pairwise fun m later => m.isOutput = true → later ≠ .declared false := by
    rw [hms]
    decide
  have hmem : .declared true ∈ ms := by
    rw [hms]
    exact List.mem_cons_self
  exact ⟨hpairwise, ((output_ofTree _ "Frob" "P").2.2 hpairwise).2 ⟨.declared true, hmem, rfl⟩⟩

/-- a declaration without the mark, after an invocation that takes the parameter as an output -/
theorem output_forgotten :
    let t := Tree.parse ("<Project><Target><Frob><Output TaskParameter='P'/></Frob></Target>" ++
      "<UsingTask TaskName='Frob'><ParameterGroup><P/></ParameterGroup></UsingTask></Project>")
    (∃ d ∈ lookUp "P" ((ofTree t).schema.parametersOf "Frob"), d.facts.output = false) ∧
      ∃ m ∈ t.projectElements.flatMap (t.mentions "Frob" "P"), m.isOutput = true := by
  decide +kernel

end Harvest
end ProjectSense
