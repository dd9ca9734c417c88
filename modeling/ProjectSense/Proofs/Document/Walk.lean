import ProjectSense.Document.Place
import ProjectSense.Proofs.Markup.Preorder

/-!
# The walk and the grammar

An element has a rule of its own, found from the root down to it.  The walk that carries the rule of
an element along to its children meets the elements that have one, in document order, and no other.

* `Tree.rule?_child`: the rule of a child is what its name means in the rule of its parent.
* `Harvest.ruled_eq`: the elements that the walk meets.
-/

namespace ProjectSense

namespace Tree

variable {t : Tree} {id child : Nat}

/-- the rule of a child is what its name means in the rule of its parent -/
theorem rule?_child (hl : t.Linked) (hc : child ∈ t.children id) :
    t.rule? child = t.rule? id >>= fun rule => t.elementName? child >>= rule.child? := by
  rw [rule?, rule?, hl.ancestors_of_parent (hl.mem_children.1 hc), List.reverse_cons]
  cases hpath : (t.ancestors id).reverse ++ [id] with
  | nil => simp at hpath
  | cons root path =>
    simp only [List.cons_append]
    split
    · simp [List.foldlM_append]
    · rfl

/-- only what has a rule holds what has one -/
theorem rule?_eq_none (hl : t.Linked) (id : Nat) (h : t.rule? id = none) :
    ∀ d ∈ id :: t.descendants id, t.rule? d = none := by
  fun_induction descendants t id with
  | case1 id ih =>
    refine List.forall_mem_cons.2 ⟨h, fun d hd => ?_⟩
    obtain ⟨child, hchild, hd⟩ := List.mem_flatMap.1 hd
    have hnone : t.rule? child = none := by
      rw [rule?_child hl hchild, h]
      rfl
    split at hd
    · next hlt =>
      split at hd
      · exact ih child hlt hnone d hd
      · cases hd
    · cases hd

/-- the first element at the top and what it holds, if that element is a project -/
def projectElements (t : Tree) : List Nat :=
  match Harvest.projectRoot? t with
  | some root => root :: t.descendants root
  | none => []

end Tree

namespace Harvest

variable {t : Tree} {id : Nat} {rule : ElementRule}

/-- the elements that have a rule, each with its own -/
def withRule (t : Tree) (ids : List Nat) : List (Nat × ElementRule) :=
  ids.filterMap fun id => (t.rule? id).map fun rule => (id, rule)

theorem withRule_eq_nil {ids : List Nat} (h : ∀ id ∈ ids, t.rule? id = none) :
    withRule t ids = [] := by
  refine List.filterMap_eq_nil_iff.2 fun id hid => ?_
  rw [h id hid]
  rfl

/-- the walk meets the elements that have a rule -/
theorem ruled_eq (hl : t.Linked) (h : t.rule? id = some rule) :
    ruled t id rule = withRule t (id :: t.descendants id) := by
  fun_induction ruled t id rule with
  | case1 id rule ih =>
    have hself : withRule t (id :: t.descendants id) =
        (id, rule) :: withRule t (t.descendants id) := by simp [withRule, h]
    rw [hself, Tree.descendants, withRule, List.filterMap_flatMap, List.flatMap_def,
      List.flatMap_def]
    refine congrArg (fun found => (id, rule) :: List.flatten found) ?_
    refine List.map_congr_left fun child hchild => ?_
    have hparent := hl.mem_children.1 hchild
    have hlt : id < child ∧ child < t.nodes.size :=
      ⟨hl.parent_lt hparent, Tree.lt_size_of_parent? hparent⟩
    have hrule : t.rule? child = t.elementName? child >>= rule.child? := by
      rw [Tree.rule?_child hl hchild, h]
      rfl
    rw [dif_pos hlt, dif_pos hlt]
    cases hc : t.elementName? child >>= rule.child? with
    | some childRule =>
      have helement : t.isElement child = true := by
        obtain ⟨name, hname, -⟩ := Option.bind_eq_some_iff.1 hc
        obtain ⟨e, he, -⟩ := Option.map_eq_some_iff.1 hname
        rw [Tree.isElement, he]
        rfl
      rw [if_pos helement]
      exact ih child hlt childRule (hrule.trans hc)
    | none =>
      have hnone : t.rule? child = none := hrule.trans hc
      refine (withRule_eq_nil fun d hd => ?_).symm
      split at hd
      · exact Tree.rule?_eq_none hl child hnone d hd
      · cases hd

theorem projectRoot?_rule {root : Nat} (hl : t.Linked) (h : projectRoot? t = some root) :
    t.rule? root = some Grammar.project := by
  obtain ⟨hroot, hnamed⟩ := Option.filter_eq_some_iff.1 h
  have hmem : root ∈ t.roots.toList := Array.mem_toList_iff.2 (Array.mem_of_find?_eq_some hroot)
  have htop := (hl.mem_roots.1 hmem).2
  rw [Tree.rule?, Tree.ancestors, htop]
  simp [hnamed]

/-- what a document declares is recorded element by element, in document order -/
theorem ofTree_eq (hl : t.Linked) :
    ofTree t = (withRule t t.projectElements).foldl (visit t) empty := by
  rw [ofTree, Tree.projectElements]
  cases h : projectRoot? t with
  | none => rfl
  | some root => exact congrArg (List.foldl (visit t) empty) (ruled_eq hl (projectRoot?_rule hl h))

end Harvest
end ProjectSense
