import ProjectSense.Proofs.Completion.Present
import ProjectSense.Proofs.Schema.File

/-!
# Completing after a cancellation

A query that has been cancelled enumerates no source any more.  What the grammar says is still
offered, and so is the metadata that is known of every item, which no source declares.  Values
that are names are the exception: they come from the registry of the document, which knows of no
cancellation.

* `Registry.live_cancel`: no source is left.
* `Document.wantsName`: the offsets at which a name is wanted as a value.
* `Document.completions_cancelled`: what is offered at all other offsets, and at these.
-/

namespace ProjectSense

/-- what sources declare under a name -/
def CompletionKind.isDeclared : CompletionKind → Bool
  | item | property | metadata | task | parameter | target => true
  | _ => false

/-- the candidates that sources declare are well-known metadata -/
def OnlyWellKnown (candidates : List Descriptor) : Prop :=
  ∀ c ∈ candidates, (CompletionKind.of c).isDeclared = true →
    ∃ m ∈ wellKnownMetadata, c = .metadata m

/-- none of the candidates is of a kind that sources declare -/
def Undeclared (candidates : List Descriptor) : Prop :=
  ∀ c ∈ candidates, (CompletionKind.of c).isDeclared = false

theorem Undeclared.onlyWellKnown {candidates : List Descriptor} (h : Undeclared candidates) :
    OnlyWellKnown candidates := by
  intro c hc hdeclared
  rw [h c hc] at hdeclared
  cases hdeclared

theorem undeclared_map {α : Type} {f : α → Descriptor} (l : List α)
    (h : ∀ a, (CompletionKind.of (f a)).isDeclared = false) : Undeclared (l.map f) :=
  List.forall_mem_map.2 fun a _ => h a

theorem CompletionItem.Presents.exists_candidate {candidates : List Descriptor}
    {items : List CompletionItem} (h : Presents candidates items) {i : CompletionItem}
    (hi : i ∈ items) : ∃ c ∈ candidates, i = ofDescriptor c := by
  obtain ⟨chosen, rfl, hfirst, -⟩ := h.chosen
  obtain ⟨c, hc, rfl⟩ := List.mem_map.1 hi
  exact ⟨c.1, List.mem_of_getElem? (hfirst c hc).place, rfl⟩

theorem Undeclared.distinct {candidates : List Descriptor} (h : Undeclared candidates) :
    Undeclared (distinctCandidates candidates) := by
  induction candidates with
  | nil => exact h
  | cons c cs ih =>
    obtain ⟨hc, hcs⟩ := List.forall_mem_cons.1 h
    refine List.forall_mem_cons.2 ⟨hc, fun c hc => ?_⟩
    exact ih hcs c (List.mem_of_mem_filter hc)

/-! ### Registries -/

namespace Registry

/-- the registry of a query that has been cancelled, or not -/
def cancel (r : Registry) (cancelled : Bool) : Registry := { r with cancelled := cancelled }

variable (r : Registry)

theorem live_cancel : (r.cancel true).live = [] := rfl

@[simp] theorem items_cancel : (r.cancel true).items = [] := rfl

@[simp] theorem properties_cancel (reserved : Bool) : (r.cancel true).properties reserved = [] :=
  rfl

@[simp] theorem tasks_cancel : (r.cancel true).tasks = [] := rfl

@[simp] theorem parameters_cancel (task : String) : (r.cancel true).parameters task = [] := rfl

@[simp] theorem declaredMetadata_cancel (item : String) :
    (r.cancel true).declaredMetadata item = [] := rfl

theorem metadata_cancel (item : String) (wellKnown : Bool) :
    (r.cancel true).metadata item wellKnown = if wellKnown then wellKnownMetadata else [] := by
  cases wellKnown with
  | false => rfl
  | true => simp [metadata]

/-- looking up a name does not depend on the cancellation -/
theorem valueAt?_cancel (cancelled : Bool) (s : Site) :
    (r.cancel cancelled).valueAt? s = r.valueAt? s := rfl

theorem category_cancel {construct : Construct} {element : String} {ds : List Descriptor}
    (h : (r.cancel true).category construct element = .ok ds) : ds = [] := by
  unfold category at h
  split at h <;> simp [metadata_cancel] at h <;> exact h

end Registry

/-! ### Elements and attributes -/

theorem undeclared_elementCandidates {r : Registry} {s : Option Site} {ds : List Descriptor}
    (h : elementCandidates (r.cancel true) s = .ok ds) : Undeclared ds := by
  unfold elementCandidates at h
  split at h
  · obtain rfl := Except.ok.inj h
    simp [Undeclared, CompletionKind.of, CompletionKind.isDeclared]
  · next s rule _ =>
    obtain ⟨groups, hgroups, h⟩ := exists_of_bind_ok h
    obtain rfl : groups.flatten = ds := Except.ok.inj h
    have hgroup : ∀ group ∈ groups, Undeclared group := by
      refine forall_of_mapM_ok (fun child _ group hchild => ?_) hgroups
      split at hchild
      · rw [r.category_cancel hchild]
        simp [Undeclared]
      · obtain rfl := Except.ok.inj hchild
        simp [Undeclared, CompletionKind.of, CompletionKind.isDeclared]
    intro c hc
    obtain ⟨group, hmem, hc⟩ := List.mem_flatten.1 hc
    exact hgroup group hmem c hc

theorem undeclared_attrCandidates (r : Registry) (t : Tree) (s : Site) (version : ToolsVersion)
    (config : CompletionConfig) :
    Undeclared (attrCandidates (r.cancel true) t s version config) := by
  unfold attrCandidates
  split
  · simp [Undeclared]
  · simp only [Registry.parameters_cancel, Registry.metadata_cancel, List.map_nil, ite_self,
      List.append_nil, Bool.false_eq_true, if_false]
    exact undeclared_map _ fun a => rfl

/-! ### References and values -/

theorem onlyWellKnown_referenceCandidates {r : Registry} {s : Site} {e : Expr}
    {ds : List Descriptor} (h : referenceCandidates? (r.cancel true) s e = some ds) :
    OnlyWellKnown ds := by
  unfold referenceCandidates? at h
  split at h
  · obtain rfl := Option.some.inj h
    exact fun c hc => by cases hc
  · obtain rfl := Option.some.inj h
    exact fun c hc => by cases hc
  · obtain rfl := Option.some.inj h
    rw [Registry.metadata_cancel, if_pos rfl]
    intro c hc _
    obtain ⟨m, hm, rfl⟩ := List.mem_map.1 hc
    exact ⟨m, hm, rfl⟩
  · cases h

/-- whether a reference is open does not depend on the registry -/
theorem isSome_referenceCandidates? (r r' : Registry) (s : Site) (e : Expr) :
    (referenceCandidates? r s e).isSome = (referenceCandidates? r' s e).isSome := by
  unfold referenceCandidates?
  split <;> rfl

/-- values of such a kind are names of what sources declare -/
def BaseKind.isDeclaredName : BaseKind → Bool
  | .taskOutputParameterName | .targetName | .propertyName | .itemName => true
  | _ => false

namespace Document

variable {d : Document} {kind : ValueKind} {s : Option Site} {typed : Option Expr}
  {config : CompletionConfig}

theorem undeclared_fileCandidates {length : Nat} {cancelled : Bool} {ds : List Descriptor}
    (h : d.fileCandidates? kind typed length s config cancelled = some ds) : Undeclared ds := by
  unfold fileCandidates? at h
  split at h
  · cases h
  · split at h
    · cases h
    · obtain rfl := Option.some.inj h
      refine undeclared_map _ fun entry => ?_
      simp only [CompletionKind.of]
      split <;> rfl

/-- only values that are names are of a kind that sources declare -/
theorem undeclared_valueCandidates {cancelled : Bool} {ds : List Descriptor}
    (hk : kind.base.isDeclaredName = false)
    (h : d.valueCandidates? kind s typed config cancelled = some ds) : Undeclared ds := by
  unfold valueCandidates? at h
  split at h
  · obtain rfl := Option.some.inj h
    exact undeclared_map _ fun value => rfl
  · have hne : ∀ base : BaseKind, base.isDeclaredName = true → kind.base ≠ base := by
      rintro base hbase rfl
      rw [hbase] at hk
      cases hk
    split at h
    · next hbase => exact absurd hbase (hne _ rfl)
    · next hbase => exact absurd hbase (hne _ rfl)
    · next hbase => exact absurd hbase (hne _ rfl)
    · next hbase => exact absurd hbase (hne _ rfl)
    all_goals first
      | exact undeclared_fileCandidates h
      | obtain rfl := Option.some.inj h
    · exact undeclared_map _ fun f => rfl
    · exact undeclared_map _ fun f => rfl
    · exact undeclared_map _ fun f => rfl
    · exact (undeclared_map _ fun f => rfl).distinct
    · exact (undeclared_map _ fun f => rfl).distinct
    · exact undeclared_map _ fun v => rfl
    · exact undeclared_map _ fun v => rfl

/-- names that are values are enumerated after a cancellation, too -/
theorem valueCandidates?_declaredName (hk : kind.base.isDeclaredName = true)
    (cancelled cancelled' : Bool) : d.valueCandidates? kind s typed config cancelled =
      d.valueCandidates? kind s typed config cancelled' := by
  unfold valueCandidates?
  split
  · rfl
  · cases hbase : kind.base with
    | taskOutputParameterName | targetName | propertyName | itemName => rfl
    | _ => exact absurd hk (by simp [hbase, BaseKind.isDeclaredName])

/-! ### Completions -/

/-- the kind of the value that is wanted at a resolution, where no reference is open -/
def wantedIn? (d : Document) (found : Resolution) (offset : Nat) : Option ValueKind := do
  let (raw, start) ← d.valueText? found offset
  let e := Expr.parse (String.ofList (typedBefore raw.toList start offset)) start
  match e.findAt offset >>= referenceCandidates? d.registry found.site with
  | some _ => none
  | none => (d.registry.valueAt? found.site).map (·.inferredKind)

/-- at the offset a value is wanted that is the name of something declared -/
def wantsName (d : Document) (offset : Nat) : Bool :=
  (d.resolve? offset >>= (d.wantedIn? · offset)).any (·.base.isDeclaredName)

variable {found : Resolution} {offset start : Nat} {raw : String}

theorem wantedIn?_of_place (h : found.place ≠ .attributeValue) (h' : found.place ≠ .content) :
    d.wantedIn? found offset = none := by
  have hnone : d.valueText? found offset = none := by
    unfold valueText?
    split
    · next hplace => exact absurd hplace h
    · next hplace => exact absurd hplace h'
    · rfl
  rw [wantedIn?, hnone]
  rfl

/-- the names for a reference that is open at the offset -/
def openNames? (r : Registry) (s : Site) (e : Expr) (offset : Nat) : Option (List Descriptor) :=
  e.findAt offset >>= referenceCandidates? r s

theorem openNames?_none {r : Registry} {s : Site} {e : Expr}
    (h : openNames? r s e offset = none) (r' : Registry) : openNames? r' s e offset = none := by
  unfold openNames? at h ⊢
  cases hnode : e.findAt offset with
  | none => rfl
  | some node =>
    have hsome := isSome_referenceCandidates? r' r s node
    rw [hnode] at h
    rw [show referenceCandidates? r s node = none from h] at hsome
    exact Option.isNone_iff_eq_none.1 (by simpa using hsome)

/-- in a value, names that are wanted are offered as ever, and else what no source declares -/
theorem candidatesInValue?_cancelled (d : Document) (found : Resolution) (offset : Nat)
    (config : CompletionConfig) :
    let inValue cancelled :=
      d.candidatesInValue? (d.registry.cancel cancelled) found offset config cancelled
    if (d.wantedIn? found offset).any (·.base.isDeclaredName) then inValue true = inValue false
    else ∀ ds, inValue true = some ds → OnlyWellKnown ds := by
  intro inValue
  cases htext : d.valueText? found offset with
  | none =>
    have hnone : inValue true = none := by simp [inValue, candidatesInValue?, htext]
    simp [wantedIn?, htext, hnone]
  | some text =>
    obtain ⟨raw, start⟩ := text
    let typed := typedBefore raw.toList start offset
    let e := Expr.parse (String.ofList typed) start
    let inKind (info : Descriptor) (cancelled : Bool) :=
      d.valueCandidates? info.inferredKind found.site (typedFolder typed start e) config cancelled
    have hwanted : d.wantedIn? found offset =
        match openNames? d.registry found.site e offset with
        | some _ => none
        | none => (d.registry.valueAt? found.site).map (·.inferredKind) := by
      simp only [wantedIn?, htext, Option.bind_eq_bind, Option.bind_some]
      rfl
    have hin : ∀ cancelled, inValue cancelled =
        match openNames? (d.registry.cancel cancelled) found.site e offset with
        | some names => some names
        | none => d.registry.valueAt? found.site >>= (inKind · cancelled) := by
      intro cancelled
      simp only [inValue, candidatesInValue?, htext, Option.bind_eq_bind, Option.bind_some]
      rfl
    rw [hwanted, hin true, hin false]
    cases hopen : openNames? d.registry found.site e offset with
    | some names =>
      simp only [Option.any_none, Bool.false_eq_true, if_false]
      intro ds hds
      cases hnames : openNames? (d.registry.cancel true) found.site e offset with
      | none => rw [openNames?_none hnames d.registry] at hopen; cases hopen
      | some names =>
        rw [hnames] at hds
        obtain rfl := Option.some.inj hds
        obtain ⟨node, -, hnode⟩ := Option.bind_eq_some_iff.1 hnames
        exact onlyWellKnown_referenceCandidates hnode
    | none =>
      rw [openNames?_none hopen, openNames?_none hopen]
      cases hinfo : d.registry.valueAt? found.site with
      | none => simp
      | some info =>
        simp only [Option.map_some, Option.any_some]
        split
        · next hk => exact valueCandidates?_declaredName hk true false
        · next hk =>
          intro ds hds
          exact (undeclared_valueCandidates (Bool.eq_false_iff.2 hk) hds).onlyWellKnown

/-- what a cancelled query offers: names that are wanted as ever, and else what no source
declares -/
theorem candidates_cancelled (d : Document) (offset : Nat) (config : CompletionConfig) :
    if d.wantsName offset then d.candidates offset config true = d.candidates offset config false
    else ∀ ds, d.candidates offset config true = .ok ds → OnlyWellKnown ds := by
  unfold wantsName
  cases hfound : d.resolve? offset with
  | none =>
    intro ds hds
    rw [candidates, hfound] at hds
    exact (undeclared_elementCandidates hds).onlyWellKnown
  | some found =>
    have hvalue := candidatesInValue?_cancelled d found offset config
    rw [Option.bind_eq_bind, Option.bind_some]
    cases hplace : found.place with
    | attributeValue | content =>
      have hin : ∀ cancelled, d.candidates offset config cancelled =
          .ok ((d.candidatesInValue? (d.registry.cancel cancelled) found offset config
            cancelled).getD []) := by
        intro cancelled
        rw [candidates, hfound]
        simp only [hplace]
        rfl
      rw [hin true, hin false]
      split at hvalue
      · next hname =>
        have hsame : d.candidatesInValue? (d.registry.cancel true) found offset config true =
          d.candidatesInValue? (d.registry.cancel false) found offset config false := hvalue
        rw [if_pos hname, hsame]
      · next hname =>
        rw [if_neg hname]
        intro ds hds
        obtain rfl := Except.ok.inj hds
        cases hnames : d.candidatesInValue? (d.registry.cancel true) found offset config true with
        | none => exact fun c hc => by cases hc
        | some names => exact hvalue names hnames
    | elementName =>
      rw [wantedIn?_of_place (by simp [hplace]) (by simp [hplace])]
      intro ds hds
      rw [candidates, hfound] at hds
      simp only [hplace] at hds
      exact (undeclared_elementCandidates hds).onlyWellKnown
    | tag | attributeName =>
      rw [wantedIn?_of_place (by simp [hplace]) (by simp [hplace])]
      intro ds hds
      rw [candidates, hfound] at hds
      simp only [hplace] at hds
      obtain rfl := Except.ok.inj hds
      exact (undeclared_attrCandidates _ _ _ _ _).onlyWellKnown
    | closingTag =>
      rw [wantedIn?_of_place (by simp [hplace]) (by simp [hplace])]
      intro ds hds
      rw [candidates, hfound] at hds
      simp only [hplace] at hds
      obtain rfl := Except.ok.inj hds
      exact fun c hc => by cases hc

/-- A cancelled query shows nothing that a source declares, but only well-known metadata of such a
kind.  The exception are the offsets at which the name of a parameter, a target, a property or an
item is wanted as a value: there a query shows the same whether or not it has been cancelled. -/
theorem completions_cancelled (d : Document) (offset : Nat) (config : CompletionConfig) :
    ∃ items, d.completions offset config true = .ok items ∧
      if d.wantsName offset then d.completions offset config false = .ok items
      else ∀ i ∈ items, i.kind.isDeclared = true →
        ∃ m ∈ wellKnownMetadata, i = .ofDescriptor (.metadata m) := by
  obtain ⟨found, hfound⟩ := d.exists_candidates offset config true
  refine ⟨_, by rw [completions, hfound]; rfl, ?_⟩
  have hcancelled := candidates_cancelled d offset config
  split at hcancelled
  · next hname => rw [if_pos hname, completions, ← hcancelled, hfound]; rfl
  · next hname =>
    rw [if_neg hname]
    intro i hi hdeclared
    obtain ⟨c, hc, rfl⟩ := (CompletionItem.presents_present found).exists_candidate hi
    obtain ⟨m, hm, rfl⟩ := hcancelled found hfound c hc hdeclared
    exact ⟨m, hm, rfl⟩

/-- the names of targets that may come before another are shown after a cancellation -/
theorem completions_cancelled_targets :
    let d := build (parse "/a.proj" "<Project><Target DependsOnTargets=\"\"/></Project>")
    d.wantsName 35 = true ∧ ∃ items, d.completions 35 {} true = .ok items ∧
      ∃ i ∈ items, i.kind = .target := by
  intro d
  obtain ⟨found, hfound⟩ := d.exists_candidates 35 {} true
  have htarget : (d.candidates 35 {} true).toOption.any (fun found =>
      !found.isEmpty && found.all fun c => CompletionKind.of c = .target) = true := by
    decide +kernel
  rw [hfound] at htarget
  simp only [Except.toOption, Option.any_some, Bool.and_eq_true, List.all_eq_true,
    decide_eq_true_eq, Bool.not_eq_true', List.isEmpty_eq_false_iff] at htarget
  obtain ⟨hne, hall⟩ := htarget
  have hpresents := CompletionItem.presents_present found
  obtain ⟨i, hi, -⟩ := hpresents.complete (found.head hne) (List.head_mem hne)
  obtain ⟨c, hc, rfl⟩ := hpresents.exists_candidate hi
  exact ⟨by decide +kernel, _, by rw [completions, hfound]; rfl, _, hi, hall c hc⟩

end Document
end ProjectSense
