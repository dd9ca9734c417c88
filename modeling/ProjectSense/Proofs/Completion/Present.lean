import ProjectSense.Completion.Basic
import ProjectSense.Proofs.Document.Names
import ProjectSense.Proofs.Text.Name

/-!
# The list of completions

The list that is shown is sorted, shows each name once, and loses none: of the candidates of one
name it shows the one that comes first.  There is always a list, for the grammar has no category
that the schemas cannot enumerate.

* `CompletionItem.presents_present`: what the items have to do with the candidates.
* `Document.exists_candidates`: at every offset there are candidates, or none are known.
* `Document.completions_presents`: the list at every offset of every document.
-/

namespace ProjectSense

namespace CompletionItem

/-! ### Order of the candidates -/

/-- a candidate at its place comes before another: it is more important, or stands before it -/
def Before (c c' : Descriptor × Nat) : Prop :=
  priorityOf c.1 < priorityOf c'.1 ∨ priorityOf c.1 = priorityOf c'.1 ∧ c.2 < c'.2

/-- the candidate comes before all others of its name -/
structure First (candidates : List Descriptor) (c : Descriptor × Nat) : Prop where
  place : candidates[c.2]? = some c.1
  before : ∀ d i, candidates[i]? = some d → sameName c.1.name d.name = true →
    c = (d, i) ∨ Before c (d, i)

/-- the items are sorted, no two have the same label, every candidate is shown under its name, and
what is shown are the first candidates of their names, in their order -/
structure Presents (candidates : List Descriptor) (items : List CompletionItem) : Prop where
  sorted : items.Pairwise fun i j => i.priority ≤ j.priority
  apart : NamesApart (items.map (·.label))
  complete : ∀ d ∈ candidates, ∃ i ∈ items, sameName i.label d.name = true
  chosen : ∃ chosen : List (Descriptor × Nat), items = chosen.map (fun c => ofDescriptor c.1) ∧
    (∀ c ∈ chosen, First candidates c) ∧ chosen.Pairwise Before

/-- the candidates with their places, in the order in which they come -/
def ordered (candidates : List Descriptor) : List (Descriptor × Nat) :=
  candidates.zipIdx.mergeSort (List.zipIdxLE fun d e => priorityOf d ≤ priorityOf e)

variable {candidates : List Descriptor} {c : Descriptor × Nat}

theorem mem_ordered : c ∈ ordered candidates ↔ candidates[c.2]? = some c.1 :=
  List.mem_mergeSort.trans List.mem_zipIdx_iff_getElem?

theorem map_ordered (candidates : List Descriptor) :
    (ordered candidates).map (fun c => ofDescriptor c.1) =
      (candidates.map ofDescriptor).mergeSort fun i j => i.priority ≤ j.priority := by
  have hfst : (ordered candidates).map Prod.fst =
      candidates.mergeSort fun d e => priorityOf d ≤ priorityOf e := List.mergeSort_zipIdx
  have hsort : (candidates.mergeSort fun d e => priorityOf d ≤ priorityOf e).map ofDescriptor =
      (candidates.map ofDescriptor).mergeSort fun i j => i.priority ≤ j.priority :=
    List.map_mergeSort fun _ _ _ _ => rfl
  rw [← hsort, ← hfst, List.map_map]
  rfl

theorem ordered_places_nodup (candidates : List Descriptor) :
    ((ordered candidates).map (·.2)).Nodup := by
  have hperm := (List.mergeSort_perm candidates.zipIdx
    (List.zipIdxLE fun d e => priorityOf d ≤ priorityOf e)).map Prod.snd
  rw [List.zipIdx_map_snd] at hperm
  exact hperm.nodup_iff.2 List.nodup_range'

theorem ordered_before (candidates : List Descriptor) : (ordered candidates).Pairwise Before := by
  have htrans : ∀ d e f : Descriptor, decide (priorityOf d ≤ priorityOf e) = true →
      decide (priorityOf e ≤ priorityOf f) = true → decide (priorityOf d ≤ priorityOf f) = true := by
    intro d e f hde hef
    simp only [decide_eq_true_eq] at *
    exact Nat.le_trans hde hef
  have htotal : ∀ d e : Descriptor,
      (decide (priorityOf d ≤ priorityOf e) || decide (priorityOf e ≤ priorityOf d)) = true := by
    intro d e
    simpa using Nat.le_total (priorityOf d) (priorityOf e)
  have hle := List.pairwise_mergeSort (List.zipIdxLE_trans htrans) (List.zipIdxLE_total htotal)
    candidates.zipIdx
  have hne := List.pairwise_map.1 (ordered_places_nodup candidates)
  refine (hle.and hne).imp ?_
  rintro ⟨d, i⟩ ⟨e, j⟩ ⟨h, hij⟩
  simp only [List.zipIdxLE, decide_eq_true_eq, Bool.ite_eq_true_distrib, Bool.false_eq_true,
    if_true_right] at h
  simp only [Before]
  split at h
  · next hde => omega
  · cases h

/-! ### One of each name -/

/-- what stays of candidates in order: the first of each name -/
theorem exists_distinct {ordered : List (Descriptor × Nat)} (h : ordered.Pairwise Before) :
    ∃ chosen : List (Descriptor × Nat),
      distinct (ordered.map fun c => ofDescriptor c.1) =
        chosen.map (fun c => ofDescriptor c.1) ∧
      chosen.Sublist ordered ∧ NamesApart (chosen.map (·.1.name)) ∧
      ∀ a ∈ ordered, ∃ c ∈ chosen, sameName c.1.name a.1.name = true ∧ (c = a ∨ Before c a) := by
  induction ordered with
  | nil => exact ⟨[], rfl, .slnil, .nil, fun a ha => by cases ha⟩
  | cons b rest ih =>
    obtain ⟨hb, hrest⟩ := List.pairwise_cons.1 h
    obtain ⟨chosen, heq, hsub, hapart, hall⟩ := ih hrest
    let others := chosen.filter fun c => !sameName b.1.name c.1.name
    refine ⟨b :: others, ?_, (List.filter_sublist.trans hsub).cons_cons b, ?_, ?_⟩
    · rw [List.map_cons, distinct, heq, List.filter_map]
      rfl
    · refine List.pairwise_cons.2 ⟨fun name hname => ?_,
        hapart.sublist (List.filter_sublist.map _)⟩
      obtain ⟨c, hc, rfl⟩ := List.mem_map.1 hname
      simpa using (List.mem_filter.1 hc).2
    · intro a ha
      rcases List.mem_cons.1 ha with rfl | ha
      · exact ⟨a, List.mem_cons_self, sameName_refl _, .inl rfl⟩
      obtain ⟨c, hc, hsame, hbefore⟩ := hall a ha
      cases hbc : sameName b.1.name c.1.name with
      | true => exact ⟨b, List.mem_cons_self, sameName_trans hbc hsame, .inr (hb a ha)⟩
      | false =>
        have hother : c ∈ others := List.mem_filter.2 ⟨hc, by simp [hbc]⟩
        exact ⟨c, List.mem_cons_of_mem _ hother, hsame, hbefore⟩

theorem presents_present (candidates : List Descriptor) :
    Presents candidates (present candidates) := by
  obtain ⟨chosen, heq, hsub, hapart, hall⟩ := exists_distinct (ordered_before candidates)
  rw [map_ordered] at heq
  have hchosen : chosen.Pairwise Before := (ordered_before candidates).sublist hsub
  rw [present, heq]
  refine ⟨?_, ?_, ?_, chosen, rfl, fun c hc => ⟨mem_ordered.1 (hsub.subset hc), ?_⟩, hchosen⟩
  · refine List.pairwise_map.2 (hchosen.imp fun hcc => ?_)
    exact hcc.elim Nat.le_of_lt fun h => Nat.le_of_eq h.1
  · rwa [List.map_map]
  · intro d hd
    obtain ⟨i, hi⟩ := List.mem_iff_getElem?.1 hd
    obtain ⟨c, hc, hsame, -⟩ := hall (d, i) (mem_ordered.2 hi)
    exact ⟨_, List.mem_map_of_mem hc, hsame⟩
  · intro d i hi hsame
    obtain ⟨c', hc', hsame', hbefore⟩ := hall (d, i) (mem_ordered.2 hi)
    have hnames := sameName_trans hsame (sameName_comm _ _ ▸ hsame')
    obtain rfl := hapart.eq_of_same hc hc' hnames
    exact hbefore

end CompletionItem

/-! ### Categories of the grammar -/

/-- the schemas can enumerate what stands for an abstract child -/
def Construct.isEnumerable : Construct → Bool
  | .item | .itemDefinition | .task | .property | .metadata | .parameter => true
  | _ => false

theorem Registry.exists_category {construct : Construct} (h : construct.isEnumerable = true)
    (r : Registry) (element : String) : ∃ ds, r.category construct element = .ok ds := by
  cases construct with
  | item | itemDefinition | task | property | metadata | parameter => exact ⟨_, rfl⟩
  | _ => cases h

/-- every abstract child in the grammar can be enumerated -/
theorem ElementRule.isEnumerable_of_isAbstract {rule : ElementRule}
    (hr : rule ∈ Grammar.elements) :
    ∀ child ∈ rule.childRules, child.isAbstract = true → child.construct.isEnumerable = true := by
  revert rule
  decide

theorem exists_mapM_ok {α β ε : Type} {f : α → Except ε β} {l : List α}
    (h : ∀ a ∈ l, ∃ b, f a = .ok b) : ∃ bs, l.mapM f = .ok bs := by
  induction l with
  | nil => exact ⟨[], rfl⟩
  | cons a l ih =>
    obtain ⟨ha, hl⟩ := List.forall_mem_cons.1 h
    obtain ⟨b, hb⟩ := ha
    obtain ⟨bs, hbs⟩ := ih hl
    exact ⟨b :: bs, by rw [List.mapM_cons, hb, hbs]; rfl⟩

theorem exists_elementCandidates (r : Registry) {site : Option Site}
    (h : ∀ s, site = some s → ∀ rule, s.rule = some rule → rule ∈ Grammar.elements) :
    ∃ ds, elementCandidates r site = .ok ds := by
  unfold elementCandidates
  split
  · exact ⟨_, rfl⟩
  · next s rule hsite =>
    obtain ⟨s', hs', hrule⟩ := Option.bind_eq_some_iff.1 hsite
    obtain ⟨rule', hrule', heq⟩ := Option.map_eq_some_iff.1 hrule
    obtain ⟨rfl, rfl⟩ := Prod.mk.inj heq
    have hmem := h s' hs' rule' hrule'
    obtain ⟨groups, hgroups⟩ := exists_mapM_ok (l := rule'.childRules) (f := fun child =>
        if child.isAbstract then r.category child.construct s'.name else .ok [.element child]) (by
      intro child hchild
      split
      · next habstract =>
        exact r.exists_category
          (ElementRule.isEnumerable_of_isAbstract hmem child hchild habstract) s'.name
      · exact ⟨_, rfl⟩)
    exact ⟨groups.flatten, by rw [hgroups]; rfl⟩

namespace Document

/-- at every offset there are candidates, or none are known -/
theorem exists_candidates (d : Document) (offset : Nat) (config : CompletionConfig)
    (cancelled : Bool) : ∃ found, d.candidates offset config cancelled = .ok found := by
  unfold candidates
  split
  · exact exists_elementCandidates _ fun s hs => by cases hs
  · next found _ =>
    split
    · refine exists_elementCandidates _ fun s hs rule hrule => ?_
      obtain ⟨parent, -, hsite⟩ := Option.bind_eq_some_iff.1 hs
      obtain ⟨name, -, rfl⟩ := Option.map_eq_some_iff.1 hsite
      exact Tree.rule?_mem hrule
    all_goals exact ⟨_, rfl⟩

/-- at every offset the list is there, and it presents the candidates -/
theorem completions_presents (d : Document) (offset : Nat) (config : CompletionConfig)
    (cancelled : Bool) : ∃ found items, d.candidates offset config cancelled = .ok found ∧
      d.completions offset config cancelled = .ok items ∧
      CompletionItem.Presents found items := by
  obtain ⟨found, hfound⟩ := d.exists_candidates offset config cancelled
  exact ⟨found, CompletionItem.present found, hfound, by rw [completions, hfound]; rfl,
    CompletionItem.presents_present found⟩

end Document
end ProjectSense
