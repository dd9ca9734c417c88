import ProjectSense.Proofs.Completion.Present
import ProjectSense.Proofs.Expr.Open

/-!
# Completing open references

Where a reference has been opened, the names that it can be of are offered, and no others.  What
was typed before it, what follows, the kind of the value and the rule of the element do not matter.

* `Opener.Opens.referenceCandidates?_eq`: what is offered for an open reference.
* `Document.completions_open`: the names at an offset where a reference is open.
-/

namespace ProjectSense

namespace Opener

/-- what an open reference can name -/
def candidates (r : Registry) (s : Site) : Opener → List Descriptor
  | property => (r.properties true).map .property
  | item => r.items.map .item
  | metadata => (r.metadata s.item true).map .metadata

/-- the names that an open reference can have -/
def names (r : Registry) (s : Site) : Opener → List String
  | property => (r.properties true).map (·.name.spelling)
  | item => r.items.map (·.name.spelling)
  | metadata => (r.metadata s.item true).map (·.name.spelling)

theorem names_eq (r : Registry) (s : Site) (o : Opener) :
    o.names r s = (o.candidates r s).map Descriptor.name := by
  cases o <;> simp only [names, candidates, List.map_map] <;> rfl

theorem Opens.referenceCandidates?_eq {start stop : Nat} {name : Word} {o : Opener} {e : Expr}
    (h : o.Opens start stop name e) (r : Registry) (s : Site) :
    referenceCandidates? r s e = some (o.candidates r s) := by
  cases h <;> rfl

end Opener

/-- the labels that are shown are the names of the candidates -/
theorem CompletionItem.Presents.exists_label_iff {candidates : List Descriptor}
    {items : List CompletionItem} (h : Presents candidates items) (name : String) :
    (∃ i ∈ items, sameName i.label name = true) ↔
      ∃ d ∈ candidates, sameName d.name name = true := by
  constructor
  · rintro ⟨i, hi, hsame⟩
    obtain ⟨chosen, rfl, hfirst, -⟩ := h.chosen
    obtain ⟨c, hc, rfl⟩ := List.mem_map.1 hi
    exact ⟨c.1, List.mem_of_getElem? (hfirst c hc).place, hsame⟩
  · rintro ⟨d, hd, hsame⟩
    obtain ⟨i, hi, hlabel⟩ := h.complete d hd
    exact ⟨i, hi, sameName_trans hlabel hsame⟩

namespace Document

variable {d : Document} {found : Resolution} {offset start : Nat} {raw : String}
  {before word after : List Char} {o : Opener}

theorem typedBefore_append (cs rest : List Char) (start : Nat) :
    typedBefore (cs ++ rest) start (start + Text.width cs) = cs := by
  rw [typedBefore, Nat.add_sub_cancel_left, Text.takeWidth_append]

theorem candidatesInValue?_open (htext : d.valueText? found offset = some (raw, start))
    (hraw : raw.toList = before ++ (o.text ++ word) ++ after)
    (hoffset : offset = start + Text.width (before ++ (o.text ++ word)))
    (hbefore : ∀ opener ∈ Expr.openers, ¬opener <:+: before)
    (hword : word = [] ∨ Token.IsIdent word) (r : Registry) (config : CompletionConfig)
    (cancelled : Bool) : d.candidatesInValue? r found offset config cancelled =
      some (o.candidates r found.site) := by
  obtain ⟨refStart, name, e, hopens, hfind⟩ := Expr.findAt_open o hbefore hword start
  have htyped : typedBefore raw.toList start offset = before ++ (o.text ++ word) := by
    rw [hraw, hoffset, typedBefore_append]
  rw [← hoffset] at hfind
  simp only [candidatesInValue?, htext, Option.bind_eq_bind, Option.bind_some, htyped, hfind,
    hopens.referenceCandidates?_eq]
  rfl

/-- only attribute values and content have a text of their own -/
theorem place_of_valueText? (h : d.valueText? found offset = some (raw, start)) :
    found.place = .attributeValue ∨ found.place = .content := by
  unfold valueText? at h
  split at h
  · next hplace => exact .inl hplace
  · next hplace => exact .inr hplace
  · cases h

/-- what is shown has the names of the candidates -/
theorem exists_completions {config : CompletionConfig} {cancelled : Bool}
    {candidates : List Descriptor} (h : d.candidates offset config cancelled = .ok candidates) :
    ∃ items, d.completions offset config cancelled = .ok items ∧
      ∀ name, (∃ i ∈ items, sameName i.label name = true) ↔
        ∃ c ∈ candidates, sameName c.name name = true :=
  ⟨_, by rw [completions, h]; rfl, (CompletionItem.presents_present _).exists_label_iff⟩

/-- where a value has a text, its candidates are all that there are -/
theorem candidates_value (hfound : d.resolve? offset = some found)
    (htext : d.valueText? found offset = some (raw, start)) (config : CompletionConfig)
    (cancelled : Bool) : d.candidates offset config cancelled =
      .ok ((d.candidatesInValue? { d.registry with cancelled := cancelled } found offset config
        cancelled).getD []) := by
  rcases place_of_valueText? htext with hplace | hplace <;>
    simp only [candidates, hfound, hplace]

/-- Where the value up to the offset ends in an opener and what was typed of a name, and nothing
before opens a reference, the names of that kind are offered. -/
theorem completions_open (hfound : d.resolve? offset = some found)
    (htext : d.valueText? found offset = some (raw, start))
    (hraw : raw.toList = before ++ (o.text ++ word) ++ after)
    (hoffset : offset = start + Text.width (before ++ (o.text ++ word)))
    (hbefore : ∀ opener ∈ Expr.openers, ¬opener <:+: before)
    (hword : word = [] ∨ Token.IsIdent word) (config : CompletionConfig) :
    ∃ items, d.completions offset config false = .ok items ∧
      ∀ name, (∃ i ∈ items, sameName i.label name = true) ↔
        ∃ n ∈ o.names { d.registry with cancelled := false } found.site,
          sameName n name = true := by
  have hcandidates : d.candidates offset config false =
      .ok (o.candidates { d.registry with cancelled := false } found.site) := by
    rw [candidates_value hfound htext, candidatesInValue?_open htext hraw hoffset hbefore hword,
      Option.getD_some]
  obtain ⟨items, hitems, hlabels⟩ := exists_completions hcandidates
  refine ⟨items, hitems, fun name => (hlabels name).trans ?_⟩
  rw [Opener.names_eq]
  simp only [List.mem_map, exists_exists_and_eq_and]

/-- in an attribute that no grammar knows, after an entry and without an end -/
theorem completions_open_property :
    let d := build (parse "/a.proj" "<a b='x;$(Fo")
    ∃ items, d.completions 12 {} false = .ok items ∧
      ∀ name, (∃ i ∈ items, sameName i.label name = true) ↔
        ∃ p ∈ d.registry.properties true, sameName p.name.spelling name = true := by
  intro d
  have htext : (d.resolve? 12).bind (d.valueText? · 12) = some ("x;$(Fo", 6) := by
    decide +kernel
  obtain ⟨found, hfound, htext⟩ := Option.bind_eq_some_iff.1 htext
  have hbefore : ∀ opener ∈ Expr.openers, ¬opener <:+: ['x', ';'] := by decide
  have hraw : "x;$(Fo".toList = ['x', ';'] ++ (Opener.property.text ++ ['F', 'o']) ++ [] := rfl
  obtain ⟨items, hitems, hnames⟩ :=
    completions_open hfound htext hraw rfl hbefore (.inr (by decide)) {}
  refine ⟨items, hitems, fun name => (hnames name).trans ?_⟩
  simp only [Opener.names, List.mem_map, exists_exists_and_eq_and]
  rfl

end Document
end ProjectSense
