import ProjectSense.Proofs.Markup.Links
import Mathlib.Data.List.Sort

/-!
# Trees in document order

The ids of a tree count its nodes in document order, whatever the events were that it was built
from: an element comes right before all that it holds, and what comes between an element and
something inside it is inside it too.

* `Tree.Nested`: what comes between an element and its children is inside the element.
* `Builder.Nesting.apply`: every event keeps the nodes so.
* `Tree.Linked.descendants_eq_filter`: what an element holds, in order.
* `Tree.preorder_ofEvents`: the tree of any events, and the walks through it.
-/

namespace ProjectSense

namespace Tree

variable {t : Tree} {i j k id p q root : Nat}

/-- nodes between an element and one of its children have parents from the element on -/
def Nested (t : Tree) : Prop :=
  ∀ {p j k : Nat}, t.parent? k = some p → p < j → j < k → ∃ q, t.parent? j = some q ∧ p ≤ q

/-! ### Around a node -/

theorem lt_of_mem_ancestors (h : i ∈ t.ancestors id) : i < id := by
  fun_induction ancestors t id with
  | case1 id parent hp hlt ih =>
    rcases List.mem_cons.1 h with rfl | h
    · exact hlt
    · exact Nat.lt_trans (ih h) hlt
  | case2 id parent hp hlt => cases h
  | case3 id hp => cases h

theorem ancestors_of_root (hp : t.parent? id = none) : t.ancestors id = [] := by
  rw [ancestors, hp]

theorem Linked.ancestors_of_parent (hl : t.Linked) (hp : t.parent? id = some p) :
    t.ancestors id = p :: t.ancestors p := by
  rw [ancestors, hp]
  exact dif_pos (hl.parent_lt hp)

theorem Linked.mem_ancestors_iff (hl : t.Linked) :
    i ∈ t.ancestors k ↔ ∃ p, t.parent? k = some p ∧ (i = p ∨ i ∈ t.ancestors p) := by
  cases hp : t.parent? k with
  | none => simp [ancestors_of_root hp]
  | some p => simp [hl.ancestors_of_parent hp]

theorem Linked.ancestors_trans (hl : t.Linked) (hij : i ∈ t.ancestors j)
    (hjk : j ∈ t.ancestors k) : i ∈ t.ancestors k := by
  induction k using Nat.strong_induction_on with
  | _ k ih =>
    obtain ⟨p, hp, hj⟩ := hl.mem_ancestors_iff.1 hjk
    refine hl.mem_ancestors_iff.2 ⟨p, hp, .inr ?_⟩
    rcases hj with rfl | hj
    · exact hij
    · exact ih p (hl.parent_lt hp) hj

theorem Linked.isElement_of_parent (hl : t.Linked) (hp : t.parent? id = some p) :
    t.isElement p = true := by
  have hmem := hl.mem_children.2 hp
  rw [children] at hmem
  rw [isElement]
  cases he : t.element? p with
  | some e => rfl
  | none =>
    rw [he] at hmem
    cases hmem

/-- the way up from a node ends at the top -/
theorem Linked.last_ancestor (hl : t.Linked) (hid : id < t.nodes.size) :
    ∃ root ∈ t.roots.toList, (id :: t.ancestors id).getLast? = some root := by
  induction id using Nat.strong_induction_on with
  | _ id ih =>
    cases hp : t.parent? id with
    | none => exact ⟨id, hl.mem_roots.2 ⟨hid, hp⟩, by rw [ancestors_of_root hp]; rfl⟩
    | some p =>
      have hlt := hl.parent_lt hp
      obtain ⟨root, hroot, hlast⟩ := ih p hlt (Nat.lt_trans hlt hid)
      exact ⟨root, hroot, by rw [hl.ancestors_of_parent hp, List.getLast?_cons_cons, hlast]⟩

/-- what is inside an element is inside one of its children or is one -/
theorem Linked.exists_child (hl : t.Linked) (h : id ∈ t.ancestors j) :
    ∃ c ∈ t.children id, c = j ∨ c ∈ t.ancestors j := by
  induction j using Nat.strong_induction_on with
  | _ j ih =>
    obtain ⟨p, hp, heq | hmem⟩ := hl.mem_ancestors_iff.1 h
    · exact ⟨j, hl.mem_children.2 (heq ▸ hp), .inl rfl⟩
    · obtain ⟨c, hc, hcp⟩ := ih p (hl.parent_lt hp) hmem
      refine ⟨c, hc, .inr (hl.mem_ancestors_iff.2 ⟨p, hp, ?_⟩)⟩
      exact hcp

/-! ### Between a node and what it holds -/

theorem Nested.mem_ancestors (hn : t.Nested) (hl : t.Linked) (hp : t.parent? k = some p)
    (hpj : p < j) (hjk : j < k) : p ∈ t.ancestors j := by
  induction j using Nat.strong_induction_on with
  | _ j ih =>
    obtain ⟨q, hq, hpq⟩ := hn hp hpj hjk
    refine hl.mem_ancestors_iff.2 ⟨q, hq, ?_⟩
    have hqj := hl.parent_lt hq
    rcases Nat.eq_or_lt_of_le hpq with rfl | hlt
    · exact .inl rfl
    · exact .inr (ih q hqj hlt (Nat.lt_trans hqj hjk))

/-- what comes between a node and something inside it is inside it too -/
theorem Nested.contiguous (hn : t.Nested) (hl : t.Linked) (h : id ∈ t.ancestors k)
    (hidj : id < j) (hjk : j < k) : id ∈ t.ancestors j := by
  induction k using Nat.strong_induction_on with
  | _ k ih =>
    obtain ⟨p, hp, rfl | hmem⟩ := hl.mem_ancestors_iff.1 h
    · exact hn.mem_ancestors hl hp hidj hjk
    · rcases Nat.lt_trichotomy j p with hlt | rfl | hgt
      · exact ih p (hl.parent_lt hp) hmem hlt
      · exact hmem
      · exact hl.ancestors_trans hmem (hn.mem_ancestors hl hp hgt hjk)

/-! ### What a node holds -/

/-- the node's place in the list of its siblings is that in the document -/
theorem Linked.children_eq_filter (hl : t.Linked) (id : Nat) :
    t.children id = (List.range t.nodes.size).filter fun j => t.parent? j = some id := by
  refine (hl.children_ordered id).eq_of_mem_iff (List.pairwise_lt_range.filter _) fun j => ?_
  rw [hl.mem_children, List.mem_filter, List.mem_range, decide_eq_true_iff]
  exact (and_iff_right_of_imp fun hp => lt_size_of_parent? hp).symm

theorem Linked.roots_eq_filter (hl : t.Linked) :
    t.roots.toList = (List.range t.nodes.size).filter fun j => t.parent? j = none := by
  refine hl.roots_ordered.eq_of_mem_iff (List.pairwise_lt_range.filter _) fun j => ?_
  rw [hl.mem_roots, List.mem_filter, List.mem_range, decide_eq_true_iff]

theorem Linked.descendants_eq (hl : t.Linked) (id : Nat) :
    t.descendants id = (t.children id).flatMap fun c =>
      if t.isElement c then c :: t.descendants c else [] := by
  rw [descendants, List.flatMap_def, List.flatMap_def]
  refine congrArg List.flatten (List.map_congr_left fun c hc => ?_)
  have hp := hl.mem_children.1 hc
  exact dif_pos ⟨hl.parent_lt hp, lt_size_of_parent? hp⟩

/-- children have greater ids, so that what holds of a node with children of which it holds is true
of all -/
@[elab_as_elim]
theorem Linked.children_induction {P : Nat → Prop} (hl : t.Linked)
    (step : ∀ id, (∀ c ∈ t.children id, P c) → P id) (id : Nat) : P id := by
  induction hm : t.nodes.size - id using Nat.strong_induction_on generalizing id with
  | _ m ih =>
    subst hm
    refine step id fun c hc => ?_
    have hp := hl.mem_children.1 hc
    have hlt := hl.parent_lt hp
    have hsize := lt_size_of_parent? hp
    exact ih _ (by omega) c rfl

theorem Linked.mem_descendants_iff (hl : t.Linked) :
    j ∈ t.descendants id ↔ t.isElement j = true ∧ id ∈ t.ancestors j := by
  induction id using hl.children_induction with
  | step id ih =>
    rw [hl.descendants_eq, List.mem_flatMap]
    constructor
    · rintro ⟨c, hc, hj⟩
      have hp := hl.mem_children.1 hc
      have hid : id ∈ t.ancestors c := hl.mem_ancestors_iff.2 ⟨id, hp, .inl rfl⟩
      split at hj
      · next he =>
        rcases List.mem_cons.1 hj with rfl | hj
        · exact ⟨he, hid⟩
        · obtain ⟨hej, hcj⟩ := (ih c hc).1 hj
          exact ⟨hej, hl.ancestors_trans hid hcj⟩
      · cases hj
    · rintro ⟨he, hid⟩
      obtain ⟨c, hc, rfl | hcj⟩ := hl.exists_child hid
      · exact ⟨c, hc, by rw [if_pos he]; exact List.mem_cons_self⟩
      · -- what holds something is an element
        obtain ⟨d, hd, -⟩ := hl.exists_child hcj
        have hce := hl.isElement_of_parent (hl.mem_children.1 hd)
        exact ⟨c, hc, by rw [if_pos hce]; exact List.mem_cons_of_mem _ ((ih c hc).2 ⟨he, hcj⟩)⟩

/-- what is inside a node comes before the next node with the same parent -/
theorem Nested.lt_of_sibling (hn : t.Nested) (hl : t.Linked) {c d : Nat}
    (hc : t.parent? c = some id) (hd : t.parent? d = some id) (hcd : c < d)
    (hj : c ∈ t.ancestors j) : j < d := by
  refine Nat.lt_of_not_le fun hle => ?_
  -- the next node would be inside this one
  have hcd' : c ∈ t.ancestors d := (Nat.eq_or_lt_of_le hle).elim (fun h => h ▸ hj)
    fun h => hn.contiguous hl hj hcd h
  obtain ⟨p, hp, hcp⟩ := hl.mem_ancestors_iff.1 hcd'
  obtain rfl : id = p := Option.some.inj (hd.symm.trans hp)
  have hidc := hl.parent_lt hc
  rcases hcp with rfl | hcp
  · exact Nat.lt_irrefl c hidc
  · exact Nat.lt_asymm hidc (lt_of_mem_ancestors hcp)

theorem Nested.descendants_ordered (hn : t.Nested) (hl : t.Linked) (id : Nat) :
    (t.descendants id).Pairwise (· < ·) := by
  induction id using hl.children_induction with
  | step id ih =>
    -- a child and what is inside it
    have hinside : ∀ c j, j ∈ (if t.isElement c then c :: t.descendants c else []) →
        j = c ∨ c ∈ t.ancestors j := by
      intro c j hj
      split at hj
      · rcases List.mem_cons.1 hj with rfl | hj
        · exact .inl rfl
        · exact .inr (hl.mem_descendants_iff.1 hj).2
      · cases hj
    rw [hl.descendants_eq, List.pairwise_flatMap]
    constructor
    · intro c hc
      split
      · refine List.pairwise_cons.2 ⟨fun j hj => ?_, ih c hc⟩
        exact lt_of_mem_ancestors (hl.mem_descendants_iff.1 hj).2
      · exact .nil
    · refine (hl.children_ordered id).imp_of_mem fun {c d} hc hd hcd j hj k hk => ?_
      have hdk : d ≤ k := (hinside d k hk).elim (fun h => h ▸ Nat.le_refl d)
        fun h => Nat.le_of_lt (lt_of_mem_ancestors h)
      have hjd : j < d := (hinside c j hj).elim (fun h => h ▸ hcd)
        fun h => hn.lt_of_sibling hl (hl.mem_children.1 hc) (hl.mem_children.1 hd) hcd h
      exact Nat.lt_of_lt_of_le hjd hdk

/-- the elements inside a node are those with the node around them, in document order -/
theorem Nested.descendants_eq_filter (hn : t.Nested) (hl : t.Linked) (id : Nat) :
    t.descendants id = (List.range t.nodes.size).filter fun j =>
      t.isElement j && decide (id ∈ t.ancestors j) := by
  refine (hn.descendants_ordered hl id).eq_of_mem_iff (List.pairwise_lt_range.filter _) fun j => ?_
  rw [hl.mem_descendants_iff, List.mem_filter, List.mem_range, Bool.and_eq_true, decide_eq_true_iff]
  refine (and_iff_right_of_imp fun h => ?_).symm
  obtain ⟨p, hp, -⟩ := hl.mem_ancestors_iff.1 h.2
  exact lt_size_of_parent? hp

/-! ### Walks with a stack -/

/-- Nodes are taken off a stack, whose top is its head, and their children put in their place; what
is not wanted is dropped.  The wanted nodes come off in the order of the second list. -/
inductive Walks (t : Tree) (wanted : Nat → Bool) : List Nat → List Nat → Prop
  | done : Walks t wanted [] []
  | visit {id : Nat} {stack out : List Nat} (hw : wanted id = true)
    (rest : Walks t wanted (t.children id ++ stack) out) : Walks t wanted (id :: stack) (id :: out)
  | drop {id : Nat} {stack out : List Nat} (hw : wanted id = false)
    (rest : Walks t wanted stack out) : Walks t wanted (id :: stack) out

/-- the walk through what an element holds goes on with the rest of the stack -/
theorem Linked.walks_append (hl : t.Linked) (id : Nat) {stack out : List Nat}
    (hrest : t.Walks t.isElement stack out) :
    t.Walks t.isElement (t.children id ++ stack) (t.descendants id ++ out) := by
  induction id using hl.children_induction generalizing stack out with
  | step id ih =>
    rw [hl.descendants_eq]
    generalize t.children id = cs at ih
    induction cs with
    | nil => exact hrest
    | cons c cs ihs =>
      have hcs := ihs fun d hd => ih d (List.mem_cons_of_mem c hd)
      rw [List.cons_append, List.flatMap_cons, List.append_assoc]
      split
      · next he => exact .visit he (ih c List.mem_cons_self hcs)
      · next he => exact .drop (Bool.eq_false_of_not_eq_true he) hcs

/-- the nodes from `first` on whose parents come before `k` -/
def pending (t : Tree) (first k : Nat) : List Nat :=
  (List.range t.nodes.size).filter fun j => decide (first ≤ j) && (t.parent? j).all (· < k)

theorem mem_pending {first : Nat} : j ∈ t.pending first k ↔
    j < t.nodes.size ∧ first ≤ j ∧ ∀ p, t.parent? j = some p → p < k := by
  simp [pending, Option.all_eq_true]

theorem pending_ordered (t : Tree) (first k : Nat) : (t.pending first k).Pairwise (· < ·) :=
  List.pairwise_lt_range.filter _

theorem Linked.pending_zero (hl : t.Linked) : t.pending 0 0 = t.roots.toList := by
  refine (pending_ordered t 0 0).eq_of_mem_iff hl.roots_ordered fun j => ?_
  rw [mem_pending, hl.mem_roots]
  cases t.parent? j <;> simp

/-- the next node is the first of the pending ones -/
theorem Linked.pending_eq_cons (hl : t.Linked) (hid : id < t.nodes.size) :
    t.pending id id = id :: t.pending (id + 1) id := by
  refine (pending_ordered t id id).eq_of_mem_iff (List.pairwise_cons.2
    ⟨fun j hj => (mem_pending.1 hj).2.1, pending_ordered t (id + 1) id⟩) fun j => ?_
  rw [List.mem_cons, mem_pending, mem_pending]
  constructor
  · rintro ⟨hj, hle, hp⟩
    exact (Nat.eq_or_lt_of_le hle).imp Eq.symm fun hlt => ⟨hj, hlt, hp⟩
  · rintro (rfl | ⟨hj, hlt, hp⟩)
    · exact ⟨hid, Nat.le_refl j, fun p hp => hl.parent_lt hp⟩
    · exact ⟨hj, Nat.le_of_lt hlt, hp⟩

/-- after a node its children are pending, before what was -/
theorem Nested.pending_succ (hn : t.Nested) (hl : t.Linked) (id : Nat) :
    t.pending (id + 1) (id + 1) = t.children id ++ t.pending (id + 1) id := by
  refine (pending_ordered t _ _).eq_of_mem_iff (List.pairwise_append.2
    ⟨hl.children_ordered id, pending_ordered t _ _, fun c hc j hj => ?_⟩) fun j => ?_
  · -- a node between an element and its child has a parent from the element on
    obtain ⟨-, hlt, hp⟩ := mem_pending.1 hj
    have hpc := hl.mem_children.1 hc
    refine Nat.lt_of_not_le fun hle => ?_
    rcases Nat.eq_or_lt_of_le hle with rfl | hlt'
    · exact Nat.lt_irrefl _ (hp id hpc)
    · obtain ⟨q, hq, hle'⟩ := hn hpc hlt hlt'
      exact Nat.lt_irrefl _ (Nat.lt_of_lt_of_le (hp q hq) hle')
  · rw [List.mem_append, mem_pending, mem_pending, hl.mem_children]
    constructor
    · rintro ⟨hj, hle, hp⟩
      by_cases hpid : t.parent? j = some id
      · exact .inl hpid
      · refine .inr ⟨hj, hle, fun p hpj => ?_⟩
        have hne : p ≠ id := fun h => hpid (h ▸ hpj)
        have := hp p hpj
        omega
    · rintro (hpid | ⟨hj, hle, hp⟩)
      · refine ⟨lt_size_of_parent? hpid, hl.parent_lt hpid, fun p hpj => ?_⟩
        obtain rfl := Option.some.inj (hpid.symm.trans hpj)
        exact Nat.lt_succ_self id
      · exact ⟨hj, hle, fun p hpj => Nat.lt_succ_of_lt (hp p hpj)⟩

/-- the walk from the top meets all nodes in the order of their ids -/
theorem Nested.walks_pending (hn : t.Nested) (hl : t.Linked) {count : Nat}
    (hc : id + count = t.nodes.size) :
    t.Walks (fun _ => true) (t.pending id id) (List.range' id count) := by
  induction count generalizing id with
  | zero =>
    have hnil : t.pending id id = [] := List.eq_nil_iff_forall_not_mem.2 fun j hj => by
      have := mem_pending.1 hj
      omega
    rw [hnil]
    exact .done
  | succ count ih =>
    rw [hl.pending_eq_cons (by omega), List.range'_succ]
    refine .visit rfl ?_
    rw [← hn.pending_succ hl]
    exact ih (by omega)

end Tree

namespace Builder

variable {b b' : Builder} {nodes : Array Node} {change : Element → Element}
  {event : Event} {pos : Nat}

/-! ### What events do to the links -/

/-- the node as the innermost open element is changed -/
def changeNode (pos : Nat) (change : Element → Element) (n : Node) : Node :=
  reach pos (changeElement (fun e => change { e with startTag := e.startTag.coverOffset pos }) n)

theorem parent_changeNode (n : Node) : (changeNode pos change n).parent = n.parent := by
  obtain ⟨parent, span, content⟩ := n
  cases content <;> rfl

theorem children_changeNode (hc : ∀ e, (change e).children = e.children) (n : Node) :
    (changeNode pos change n).children = n.children := by
  obtain ⟨parent, span, content⟩ := n
  cases content with
  | element e => exact congrArg Array.toList (hc { e with startTag := e.startTag.coverOffset pos })
  | text raw => rfl

theorem sameLinks_changeNode (hc : ∀ e, (change e).children = e.children) (id : Nat) :
    SameLinks nodes (nodes.modify id (changeNode pos change)) := by
  intro i
  rw [Array.getElem?_modify]
  split
  · rw [Option.map_map]
    congr 1
    funext n
    exact Prod.ext (parent_changeNode n) (children_changeNode hc n)
  · rfl

/-- an element that is changed while it is the innermost stays open under the same -/
theorem Linked.changeInnermost (h : b.Linked) (pos : Nat)
    (hc : ∀ e, (change e).children = e.children)
    (ho : ∀ e, e.isClosed = false → (change e).isClosed = false) :
    (b.changeInnermost pos change).Linked := by
  unfold Builder.changeInnermost
  split
  · exact h
  · next id outer hopened =>
    refine h.congr (List.nil_append _).symm (sameLinks_changeNode hc id) ?_
    rintro i - parent ⟨n, e, hn, he, hp, hopen⟩
    by_cases hid : id = i
    · refine ⟨changeNode pos change n, change { e with startTag := e.startTag.coverOffset pos }, ?_,
        ?_, (parent_changeNode n).trans hp, ho _ hopen⟩
      · rw [Array.getElem?_modify, if_pos hid, hn]
        rfl
      · simp only [changeNode, reach, changeElement, he]
    · exact ⟨n, e, by rw [Array.getElem?_modify, if_neg hid, hn], he, hp, hopen⟩

/-- an element that is changed and ends leaves those around it as they were -/
theorem Linked.endInnermost (h : b.Linked) (pos : Nat)
    (hc : ∀ e, (change e).children = e.children) :
    ({ b.changeInnermost pos change with opened := b.opened.tail } : Builder).Linked := by
  unfold Builder.changeInnermost
  cases ho : b.opened with
  | nil => exact h.congr (List.append_nil _).symm (fun _ => rfl) fun i hi => by cases hi
  | cons id outer =>
    have hord := h.ordered
    rw [ho] at hord
    have hopened : b.opened = [id] ++ outer := ho
    refine h.inner hopened (sameLinks_changeNode hc id) fun i hi => ?_
    have hne : id ≠ i := Nat.ne_of_gt ((List.pairwise_cons.1 hord).1 i hi)
    exact Array.getElem?_modify.trans (if_neg hne)

/-- the links so far agree after every event -/
theorem Linked.apply (h : b.Linked) (event : Event) : (b.apply event).Linked := by
  cases event with
  | start name nameSpan pos =>
    rw [Builder.apply, start_eq_add]
    exact h.add rfl fun _ => ⟨_, rfl, rfl⟩
  | attr a =>
    rw [Builder.apply]
    exact h.changeInnermost a.span.stop (fun _ => rfl) fun _ ho => ho
  | endStart pos selfClosing =>
    cases selfClosing with
    | true =>
      rw [Builder.apply, if_pos rfl]
      exact h.endInnermost pos fun _ => rfl
    | false =>
      rw [Builder.apply, if_neg Bool.false_ne_true]
      refine h.changeInnermost pos (fun _ => rfl) fun e ho => ?_
      exact (Bool.or_eq_false_iff.1 ho).2
  | extend pos => exact h.changeInnermost pos (fun _ => rfl) fun _ ho => ho
  | text raw span =>
    rw [Builder.apply, push_eq_add]
    exact h.add rfl fun ho => by cases ho
  | close name span => exact h.close name span

/-- an event puts a node under the innermost open element, or keeps the links and opens nothing -/
theorem apply_cases (b : Builder) (event : Event) :
    (∃ span content opens, b.apply event = b.add span content opens) ∨
      SameLinks b.nodes (b.apply event).nodes ∧ ∀ i ∈ (b.apply event).opened, i ∈ b.opened := by
  have hchange : ∀ pos change, (∀ e, (change e).children = e.children) →
      SameLinks b.nodes (b.changeInnermost pos change).nodes ∧
        ∀ i ∈ (b.changeInnermost pos change).opened, i ∈ b.opened := by
    intro pos change hc
    unfold Builder.changeInnermost
    split
    · exact ⟨fun _ => rfl, fun _ hi => hi⟩
    · exact ⟨sameLinks_changeNode hc _, fun _ hi => hi⟩
  cases event with
  | start name nameSpan pos => exact .inl ⟨_, _, _, start_eq_add b name nameSpan pos⟩
  | attr a =>
    exact .inr (hchange a.span.stop (fun e => { e with attributes := e.attributes.push a })
      fun _ => rfl)
  | endStart pos selfClosing =>
    obtain ⟨hs, ho⟩ := hchange pos
      (fun e => { e with startTagClosed := true, selfClosing := selfClosing }) fun _ => rfl
    cases selfClosing with
    | true => exact .inr ⟨hs, fun i hi => List.mem_of_mem_tail hi⟩
    | false => exact .inr ⟨hs, ho⟩
  | extend pos => exact .inr (hchange pos id fun _ => rfl)
  | text raw span => exact .inl ⟨_, _, _, push_eq_add b span _⟩
  | close name span => exact .inr ⟨sameLinks_close b name span, close_opened b name span⟩

/-! ### Builders in document order -/

/-- the links agree, and nodes between an element and one of its children, or after one that is
still open, have parents from the element on -/
structure Nesting (b : Builder) : Prop where
  linked : b.Linked
  nested : b.tree.Nested
  inside : ∀ {id j : Nat}, id ∈ b.opened → id < j → j < b.nodes.size →
    ∃ q, b.tree.parent? j = some q ∧ id ≤ q

theorem nesting_empty : empty.Nesting := by
  refine ⟨linked_empty, fun {p j k} hp => ?_, fun hid => ?_⟩
  · cases hp
  · cases hid

theorem Nesting.add {span : Span} {content : Content} {opens : Bool} (h : b.Nesting)
    (hl : (b.add span content opens).Linked) : (b.add span content opens).Nesting := by
  have hpar := parent?_add b span content opens
  have hinside : ∀ {id j : Nat}, id ∈ b.opened → id < j → j < b.nodes.size + 1 →
      ∃ q, (b.add span content opens).tree.parent? j = some q ∧ id ≤ q := by
    intro id j hid hlt hj
    rw [hpar]
    split
    · -- the new node stands under the innermost open element, and the others come before that
      cases ho : b.opened with
      | nil => rw [ho] at hid; cases hid
      | cons top outer =>
        have hord := h.linked.ordered
        rw [ho] at hord hid
        refine ⟨top, rfl, ?_⟩
        rcases List.mem_cons.1 hid with rfl | hmem
        · exact Nat.le_refl id
        · exact Nat.le_of_lt ((List.pairwise_cons.1 hord).1 id hmem)
    · exact h.inside hid hlt (by omega)
  refine ⟨hl, fun {p j k} hp hpj hjk => ?_, fun {id j} hid hlt hj => ?_⟩
  · rw [hpar] at hp
    split at hp
    · next hk => exact hinside (List.mem_of_head? hp) hpj (by omega)
    · have hk := Tree.lt_size_of_parent? hp
      change k < b.nodes.size at hk
      rw [hpar, if_neg (by omega)]
      exact h.nested hp hpj hjk
  · rw [size_add] at hj
    change id ∈ (if opens then b.nodes.size :: b.opened else b.opened) at hid
    split at hid
    · rcases List.mem_cons.1 hid with rfl | hid
      · omega
      · exact hinside hid hlt hj
    · exact hinside hid hlt hj

theorem Nesting.congr (h : b.Nesting) (hl : b'.Linked) (hs : SameLinks b.nodes b'.nodes)
    (ho : ∀ i ∈ b'.opened, i ∈ b.opened) : b'.Nesting := by
  have hpar : ∀ i, b'.tree.parent? i = b.tree.parent? i := fun i => hs.parent?_eq (w := 0) i
  refine ⟨hl, fun {p j k} hp => ?_, fun {id j} hid hlt hj => ?_⟩
  · rw [hpar] at hp
    rw [hpar]
    exact h.nested hp
  · rw [hpar]
    exact h.inside (ho id hid) hlt (hs.size_eq ▸ hj)

theorem Nesting.apply (h : b.Nesting) (event : Event) : (b.apply event).Nesting := by
  have hl := h.linked.apply event
  rcases apply_cases b event with ⟨span, content, opens, heq⟩ | ⟨hs, ho⟩
  · rw [heq] at hl ⊢
    exact h.add hl
  · exact h.congr hl hs ho

theorem Nesting.foldl (h : b.Nesting) (events : List Event) :
    (events.foldl Builder.apply b).Nesting := by
  induction events generalizing b with
  | nil => exact h
  | cons event events ih => exact ih (h.apply event)

theorem Nesting.finish (h : b.Nesting) (width : Nat) :
    (b.finish width).Linked ∧ (b.finish width).Nested := by
  refine ⟨h.linked.finish width, fun {p j k} hp => ?_⟩
  have hs := sameLinks_leave b width b.opened []
  have hpar : ∀ i, (b.finish width).parent? i = b.tree.parent? i := fun i =>
    hs.parent?_eq (w := 0) i
  rw [hpar] at hp
  rw [hpar]
  exact h.nested hp

end Builder

namespace Tree

variable (events : List Event) (width : Nat)

theorem nested_ofEvents : (ofEvents events width).Linked ∧ (ofEvents events width).Nested :=
  (Builder.nesting_empty.foldl events).finish width

/-- the ids count the nodes in document order: parents and children agree, what is inside a node
follows it without a gap, and the ways up and down take what is around a node and inside it -/
structure Preorder (t : Tree) : Prop where
  parent : ∀ id p, t.parent? id = some p → p < id ∧ t.isElement p = true
  children : ∀ id,
    t.children id = (List.range t.nodes.size).filter fun j => t.parent? j = some id
  roots : t.roots.toList = (List.range t.nodes.size).filter fun j => t.parent? j = none
  contiguous : ∀ id j k, id ∈ t.ancestors k → id < j → j < k → id ∈ t.ancestors j
  walk : t.Walks (fun _ => true) t.roots.toList (List.range t.nodes.size)
  ancestors : ∀ id, t.ancestors id = (t.parent? id).elim [] fun p => p :: t.ancestors p
  top : ∀ id < t.nodes.size, ∃ root ∈ t.roots.toList,
    (id :: t.ancestors id).getLast? = some root
  descendants : ∀ id, t.descendants id =
    (List.range t.nodes.size).filter fun j => t.isElement j && decide (id ∈ t.ancestors j)
  descendants_walk : ∀ id, t.Walks t.isElement (t.children id) (t.descendants id)

/-- whatever the events are, in balance or not, their tree is in document order -/
theorem preorder_ofEvents : (ofEvents events width).Preorder := by
  obtain ⟨hl, hn⟩ := nested_ofEvents events width
  refine ⟨fun id p hp => ⟨hl.parent_lt hp, hl.isElement_of_parent hp⟩, hl.children_eq_filter,
    hl.roots_eq_filter, fun _ _ _ h => hn.contiguous hl h, ?_, fun id => ?_,
    fun id => hl.last_ancestor, hn.descendants_eq_filter hl, fun id => ?_⟩
  · rw [← hl.pending_zero, List.range_eq_range']
    exact hn.walks_pending hl (Nat.zero_add _)
  · cases hp : (ofEvents events width).parent? id with
    | none => exact ancestors_of_root hp
    | some p => exact hl.ancestors_of_parent hp
  · have hwalk := hl.walks_append id .done
    rwa [List.append_nil, List.append_nil] at hwalk

end Tree
end ProjectSense
