import ProjectSense.Proofs.Document.Declared

/-!
# What stands in a target

Whether an item, a property or a group stands in a target is told by the name of a single element, a
fixed number of elements up.  The grammar makes this right for every document: from a group's
members the way up to the group passes no target, a group stands right in the target if it stands in
one, and what holds groups is known by its name.

* `Tree.exists_group`: the way up to the group.
* `Tree.parentName?_group`: what the name of the element around a group tells.
* `Tree.inTarget_parse`: the name tells whether some element around is a target.
-/

namespace ProjectSense

/-! ### What the grammar says -/

namespace Construct

/-- how many elements up the group is; definitions of items stand in groups too -/
def depth? : Construct → Option Nat
  | .itemGroup | .propertyGroup | .itemDefinitionGroup => some 0
  | .item | .property | .itemDefinition => some 1
  | .metadata => some 2
  | _ => none

/-- what stands in no target, whatever the document -/
def outside : List Construct := [.project, .choose, .when, .otherwise, .target]

theorem depth?_of_stepsToGroup? {c : Construct} {n : Nat} (h : Tree.stepsToGroup? c = some n) :
    c.depth? = some n := by
  cases c <;> first | exact h | cases h

end Construct

namespace ElementRule

variable {outer rule : ElementRule} {name : String} {n : Nat}

theorem child?_mem_childRules (h : outer.child? name = some rule) : rule ∈ outer.childRules := by
  rcases Option.or_eq_some_iff.1 h with h | ⟨-, h⟩
  · exact List.mem_of_find?_eq_some h
  · exact List.mem_of_find?_eq_some h

/-- one element up the group is one element nearer -/
theorem depth?_of_childRules (ho : outer ∈ Grammar.elements) (hc : rule ∈ outer.childRules)
    (h : rule.construct.depth? = some (n + 1)) : outer.construct.depth? = some n := by
  have hall : ∀ outer ∈ Grammar.elements, ∀ rule ∈ outer.childRules,
      ∀ k ∈ rule.construct.depth?, k = 0 ∨ outer.construct.depth? = some (k - 1) := by
    decide
  exact (hall outer ho rule hc _ h).resolve_left (Nat.succ_ne_zero n)

/-- what holds groups stands in no target, and is a target if its name says so -/
theorem group_of_childRules (ho : outer ∈ Grammar.elements) (hc : rule ∈ outer.childRules)
    (h : rule.construct.depth? = some 0) :
    outer.construct ∈ Construct.outside ∧ outer.isAbstract = false ∧
      (sameName outer.name "Target" = true ↔ outer.construct = .target) := by
  have hall : ∀ outer ∈ Grammar.elements, ∀ rule ∈ outer.childRules,
      rule.construct.depth? = some 0 → outer.construct ∈ Construct.outside ∧
        outer.isAbstract = false ∧
        (sameName outer.name "Target" = true ↔ outer.construct = .target) := by
    decide +kernel
  exact hall outer ho rule hc h

theorem outside_of_childRules (ho : outer ∈ Grammar.elements) (hc : rule ∈ outer.childRules)
    (h : rule.construct ∈ Construct.outside) :
    outer.construct ∈ Construct.outside ∧ outer.construct ≠ .target := by
  have hall : ∀ outer ∈ Grammar.elements, ∀ rule ∈ outer.childRules,
      rule.construct ∈ Construct.outside →
        outer.construct ∈ Construct.outside ∧ outer.construct ≠ .target := by
    decide
  exact hall outer ho rule hc h

end ElementRule

/-! ### The way up -/

namespace Tree

variable {t : Tree} {id q : Nat} {rule : ElementRule} {n : Nat}

/-- some element around is a target -/
def StandsInTarget (t : Tree) (id : Nat) : Prop :=
  ∃ a ∈ t.ancestors id, t.construct? a = some .target

theorem standsInTarget_iff (hl : t.Linked) (hq : t.parent? id = some q) :
    t.StandsInTarget id ↔ t.construct? q = some .target ∨ t.StandsInTarget q := by
  simp only [StandsInTarget, hl.ancestors_of_parent hq, List.mem_cons, exists_eq_or_imp]

theorem rule?_of_root (hq : t.parent? id = none) (hr : t.rule? id = some rule) :
    rule = Grammar.project := by
  rw [rule?, ancestors_of_root hq] at hr
  simp only [List.reverse_nil, List.nil_append, List.foldlM_nil] at hr
  split at hr
  · exact (Option.some.inj hr).symm
  · cases hr

/-- the element around what has a rule has one, under which the other may stand -/
theorem rule?_of_parent? (hl : t.Linked) (hq : t.parent? id = some q)
    (hr : t.rule? id = some rule) :
    ∃ outer, t.rule? q = some outer ∧ outer ∈ Grammar.elements ∧ rule ∈ outer.childRules := by
  rw [rule?_child hl (hl.mem_children.2 hq)] at hr
  obtain ⟨outer, houter, hr⟩ := Option.bind_eq_some_iff.1 hr
  obtain ⟨name, -, hchild⟩ := Option.bind_eq_some_iff.1 hr
  exact ⟨outer, houter, rule?_mem houter, ElementRule.child?_mem_childRules hchild⟩

theorem parentElement?_of_parent? (hl : t.Linked) (hq : t.parent? id = some q) :
    t.parentElement? id = some q := by
  obtain ⟨e, he⟩ := element?_of_child (hl.mem_children.2 hq)
  rw [parentElement?, hq, Option.filter_some, isElement, he]
  rfl

/-- what stands near a group, or is one, stands in an element -/
theorem exists_parent? (hr : t.rule? id = some rule) (h : rule.construct.depth? = some n) :
    ∃ q, t.parent? id = some q := by
  cases hq : t.parent? id with
  | some q => exact ⟨q, rfl⟩
  | none =>
    obtain rfl := rule?_of_root hq hr
    cases h

theorem not_standsInTarget (hl : t.Linked) (hr : t.rule? id = some rule)
    (h : rule.construct ∈ Construct.outside) : ¬t.StandsInTarget id := by
  induction id using Nat.strong_induction_on generalizing rule with
  | _ id ih =>
    cases hq : t.parent? id with
    | none =>
      rw [StandsInTarget, ancestors_of_root hq]
      simp
    | some q =>
      obtain ⟨outer, houter, hmem, hchild⟩ := rule?_of_parent? hl hq hr
      obtain ⟨hout, hne⟩ := ElementRule.outside_of_childRules hmem hchild h
      rw [standsInTarget_iff hl hq, construct?, houter]
      rintro (htarget | hstands)
      · exact hne (Option.some.inj htarget)
      · exact ih q (hl.parent_lt hq) houter hout hstands

/-- so many elements up there is a group, which stands in a target if what it holds does -/
theorem exists_group (hl : t.Linked) (hr : t.rule? id = some rule)
    (h : rule.construct.depth? = some n) :
    ∃ g group, t.up? n id = some g ∧ t.rule? g = some group ∧ group.construct.depth? = some 0 ∧
      (t.StandsInTarget id ↔ t.StandsInTarget g) := by
  induction n generalizing id rule with
  | zero => exact ⟨id, rule, rfl, hr, h, Iff.rfl⟩
  | succ n ih =>
    obtain ⟨q, hq⟩ := exists_parent? hr h
    obtain ⟨outer, houter, hmem, hchild⟩ := rule?_of_parent? hl hq hr
    have hdepth := ElementRule.depth?_of_childRules hmem hchild h
    obtain ⟨g, group, hg, hgroup, hzero, hstands⟩ := ih houter hdepth
    have hne : t.construct? q ≠ some .target := by
      rw [construct?, houter]
      intro htarget
      have hconstruct : outer.construct = .target := Option.some.inj htarget
      rw [hconstruct] at hdepth
      cases hdepth
    refine ⟨g, group, ?_, hgroup, hzero, ?_⟩
    · rw [up?, parentElement?_of_parent? hl hq]
      exact hg
    · rw [standsInTarget_iff hl hq, or_iff_right hne, hstands]

/-- the name of the element around a group tells whether the group stands in a target -/
theorem parentName?_group (hl : t.Linked) (hr : t.rule? id = some rule)
    (h : rule.construct.depth? = some 0) :
    (t.parentName? id).any (sameName · "Target") = true ↔ t.StandsInTarget id := by
  obtain ⟨q, hq⟩ := exists_parent? hr h
  obtain ⟨outer, houter, hmem, hchild⟩ := rule?_of_parent? hl hq hr
  obtain ⟨hout, hword, htarget⟩ := ElementRule.group_of_childRules hmem hchild h
  obtain ⟨e, he⟩ := element?_of_child (hl.mem_children.2 hq)
  have hname : t.parentName? id = some e.name := by
    rw [parentName?, parentElement?_of_parent? hl hq]
    exact congrArg (Option.map Element.name) he
  have hsame := rule?_named hl houter he hword
  rw [hname, Option.any_some, ← sameName_congr hsame, htarget, standsInTarget_iff hl hq,
    or_iff_left (not_standsInTarget hl houter hout), construct?, houter]
  simp

/-- In every document an element that the grammar takes for metadata, an item, a property or a group
of items or properties is told to be in a target just when the grammar takes some element around it
for one. -/
theorem inTarget_parse (text : String) {id : Nat} {construct : Construct}
    (hc : (parse text).construct? id = some construct)
    (hk : construct ∈ [.metadata, .item, .property, .itemGroup, .propertyGroup]) :
    (parse text).inTarget construct id = true ↔
      ∃ a ∈ (parse text).ancestors id, (parse text).construct? a = some .target := by
  have hl := linked_parse text
  obtain ⟨rule, hr, rfl⟩ := Option.map_eq_some_iff.1 hc
  obtain ⟨steps, hsteps⟩ : ∃ steps, stepsToGroup? rule.construct = some steps := by
    simp only [List.mem_cons, List.not_mem_nil, or_false] at hk
    rcases hk with hk | hk | hk | hk | hk <;> exact ⟨_, congrArg stepsToGroup? hk⟩
  obtain ⟨g, group, hg, hgroup, hzero, hstands⟩ :=
    exists_group hl hr (Construct.depth?_of_stepsToGroup? hsteps)
  rw [inTarget, hsteps]
  simp only [hg, Option.bind_eq_bind, Option.bind_some]
  rw [parentName?_group hl hgroup hzero, ← hstands]
  rfl

/-- metadata of an item that is named as a target is, in a target and outside -/
theorem inTarget_parse_metadata :
    let t := parse "<Project><Target><ItemGroup><Target><Link/></Target></ItemGroup></Target></Project>"
    let u := parse "<Project><ItemGroup><Target><Link/></Target></ItemGroup></Project>"
    (t.inTarget .metadata 4 = true ∧ ∃ a ∈ t.ancestors 4, t.construct? a = some .target) ∧
      u.inTarget .metadata 3 = false ∧ ¬∃ a ∈ u.ancestors 3, u.construct? a = some .target := by
  intro t u
  have ht : t.construct? 4 = some .metadata := by decide +kernel
  have hu : u.construct? 3 = some .metadata := by decide +kernel
  have hin : t.inTarget .metadata 4 = true := by decide +kernel
  have hout : u.inTarget .metadata 3 = false := by decide +kernel
  refine ⟨⟨hin, (inTarget_parse _ ht (by decide)).1 hin⟩, hout, fun h => ?_⟩
  rw [(inTarget_parse _ hu (by decide)).2 h] at hout
  cases hout

end Tree
end ProjectSense
