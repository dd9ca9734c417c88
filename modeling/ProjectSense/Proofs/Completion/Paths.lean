import ProjectSense.Completion.Paths
import ProjectSense.Proofs.Expr.Words
import ProjectSense.Proofs.Path.Combinations
import ProjectSense.Proofs.Path.Split

/-!
# The paths of an expression

Literal text and properties are written as a template and cut into parts again.  The paths of an
expression are those of its pieces as long as no literal is taken for a reference.

* `Expr.templateOfParts?_eq`: the template is written from the pieces.
* `Document.pathsOf_limit`: a limit cuts the list of paths off.
* `Document.pathsOf_pieces`: one path for each choice of values for the properties.
* `Document.pathsOf_escaped`: an escaped text that is taken for a reference.
-/

namespace ProjectSense

theorem Token.continuesName_cases {c : Char} (h : continuesName c = true) :
    Text.isBlank c = false ∧ c ≠ ')' := by
  refine ⟨Text.not_blank_of_runs (p := continuesName) (by decide +kernel) h, ?_⟩
  rintro rfl
  cases h

namespace TemplatePart

theorem fill_solid (value : String → String) (parts : List TemplatePart) :
    fill value (solid parts) = fill value parts := by
  induction parts with
  | nil => rfl
  | cons part parts ih =>
    cases part with
    | literal text =>
      rw [solid_literal, fill_literal, ← ih]
      unfold literals
      split
      · next hempty => rw [hempty, List.nil_append, List.nil_append]
      · rw [List.singleton_append, fill_literal]
    | property name => rw [solid_property, fill_property, fill_property, ih]

theorem namesIn_solid (parts : List TemplatePart) :
    Values.namesIn (solid parts) = Values.namesIn parts := by
  have hnames : (solid parts).filterMap name? = parts.filterMap name? := by
    induction parts with
    | nil => rfl
    | cons part parts ih =>
      cases part with
      | literal text =>
        rw [solid_literal, List.filterMap_append, ih]
        unfold literals
        split <;> rfl
      | property name =>
        rw [solid_property, List.filterMap_cons, List.filterMap_cons, ih]
  rw [Values.namesIn_eq_eraseDupsBy, hnames, ← Values.namesIn_eq_eraseDupsBy]

end TemplatePart

namespace Expr

open PathSource (templateOf? templateOfParts?)
open TemplatePart (WellFormed Plain write)

/-- literal text with its escapes resolved, or a property's name; no other node is a piece -/
def piece? : Expr → Option TemplatePart
  | .text _ raw => some (.literal (unescape raw).toList)
  | .property _ name _ => some (.property name.text)
  | _ => none

/-- the pieces that the last entry is put together of, if it has no other parts -/
def pieces? (e : Expr) : Option (List TemplatePart) :=
  match e.lastEntry with
  | .concat _ parts => parts.mapM piece?
  | _ => none

variable {part : Expr} {parts : List Expr} {piece : TemplatePart} {pieces : List TemplatePart}

/-- the pieces of the parts, one for each -/
def Made (parts : List Expr) (pieces : List TemplatePart) : Prop :=
  List.Forall₂ (fun part piece => part.piece? = some piece) parts pieces

theorem templateOf?_eq (h : part.piece? = some piece) :
    templateOf? 0 part = some (write [piece]) := by
  cases part with
  | text span raw =>
    obtain rfl := Option.some.inj h
    simp [templateOf?, dropLastChars, write]
  | property span name complete =>
    obtain rfl := Option.some.inj h
    simp [templateOf?, write]
  | item | metadata | call | concat | list => cases h

/-- the template of the parts is written from their pieces -/
theorem templateOfParts?_eq (h : Made parts pieces) :
    templateOfParts? 0 parts = some (write pieces) := by
  induction h with
  | nil => rfl
  | @cons part piece parts more hpiece hmore ih =>
    cases hmore with
    | nil => exact templateOf?_eq hpiece
    | cons =>
      rw [templateOfParts?, templateOf?_eq hpiece, ih]
      · exact congrArg some List.flatMap_append.symm
      · exact List.cons_ne_nil _ _

theorem isLiteral_of_piece? (h : part.piece? = some piece) : piece.isLiteral = part.isText := by
  cases part with
  | text | property => obtain rfl := Option.some.inj h; rfl
  | item | metadata | call | concat | list => cases h

theorem apart_pieces (h : Made parts pieces) (hapart : TextsApart parts) :
    pieces.IsChain fun a b => ¬(a.isLiteral = true ∧ b.isLiteral = true) := by
  induction h with
  | nil => exact .nil
  | cons hpiece hmore ih =>
    cases hmore with
    | nil => exact .singleton _
    | cons hnext =>
      obtain ⟨hne, hrest⟩ := hapart
      refine List.isChain_cons_cons.2 ⟨?_, ih hrest⟩
      rwa [isLiteral_of_piece? hpiece, isLiteral_of_piece? hnext]

theorem names_pieces (h : Made parts pieces) (hnamed : ∀ p ∈ parts, p.Named) :
    ∀ name, .property name ∈ pieces → ∀ c ∈ name.toList, Text.isBlank c = false ∧ c ≠ ')' := by
  induction h with
  | nil => simp
  | @cons part piece parts more hpiece hmore ih =>
    obtain ⟨hpart, hparts⟩ := List.forall_mem_cons.1 hnamed
    intro name hname c hc
    rcases List.mem_cons.1 hname with rfl | hname
    · cases part with
      | property span word complete =>
        obtain rfl : word.text = name := TemplatePart.property.inj (Option.some.inj hpiece)
        exact Token.continuesName_cases (hpart c hc)
      | text => cases Option.some.inj hpiece
      | item | metadata | call | concat | list => cases hpiece
    · exact ih hparts name hname c hc

/-- the pieces of what is read can be read again -/
theorem wellFormed_pieces (h : Made parts pieces) (hapart : TextsApart parts)
    (hnamed : ∀ p ∈ parts, p.Named) : WellFormed pieces :=
  ⟨apart_pieces h hapart, names_pieces h hnamed⟩

end Expr

theorem PathSource.paths_limit (values : Values) (base : List Char) (limit : Nat)
    (source : PathSource) :
    source.paths values base (some limit) = (source.paths values base none).take limit := by
  cases source with
  | nothing => exact List.take_nil.symm
  | path p => rfl
  | template t => exact Values.firstPaths_eq values t base limit

namespace Document

open TemplatePart (Plain fill)

/-- the first paths are had without the others -/
theorem pathsOf_limit (d : Document) (e : Option Expr) (n : Nat) (base : Option String)
    (limit : Nat) : d.pathsOf e n base (some limit) = (d.pathsOf e n base none).take limit :=
  PathSource.paths_limit d.values _ limit _

/-- Where an expression ends with texts and properties put together, and no reference begins in a
text, its paths are those of all choices of one value for each property, in lexicographic order, the
property that occurs first varying slowest: the texts without their escapes, with the values in the
places of the properties.  What makes no path is left out. -/
theorem pathsOf_pieces (d : Document) (base : Option String) (text : String) (start : Nat)
    {pieces : List TemplatePart} (hpieces : (Expr.parse text start).pieces? = some pieces)
    (hplain : Plain pieces) :
    let names := Values.namesIn pieces
    let directory := (base.getD d.directory).toList
    NamesApart names ∧ (∀ name, .property name ∈ pieces → ∃ n ∈ names, sameName n name = true) ∧
      ∃ tuples, Enumerates (names.map fun name => (d.values.choices name).length) tuples ∧
        d.pathsOf (some (Expr.parse text start)) 0 base none = tuples.filterMap fun c =>
          (Path.resolve? (fill (d.values.pick names c) pieces) directory).map String.ofList := by
  intro names directory
  obtain ⟨span, parts, hlast, hmade⟩ : ∃ span parts,
      (Expr.parse text start).lastEntry = .concat span parts ∧ Expr.Made parts pieces := by
    unfold Expr.pieces? at hpieces
    split at hpieces
    · next hlast => exact ⟨_, _, hlast, Text.mapM_eq_some_iff.1 hpieces⟩
    · cases hpieces
  obtain ⟨hapart, hnamed⟩ := Expr.concat_parse hlast
  have hsplit := TemplatePart.split_write (Expr.wellFormed_pieces hmade hapart hnamed) hplain
  have hpaths : d.pathsOf (some (Expr.parse text start)) 0 base none =
      d.values.paths (TemplatePart.write pieces) directory := by
    rw [pathsOf, PathSource.ofExpr?, hlast]
    simp only [Expr.templateOfParts?_eq hmade]
    rfl
  have htexts := Values.expansions_eq_map d.values (TemplatePart.write pieces)
  simp only [hsplit, TemplatePart.namesIn_solid, TemplatePart.fill_solid] at htexts
  refine ⟨distinctNames_apart _, fun name => Values.covered_namesIn, d.values.picks names,
    Values.enumerates_picks d.values names, ?_⟩
  rw [hpaths, Values.paths, htexts, List.filterMap_map]
  rfl

/-- two properties with two values each make four paths -/
theorem pathsOf_output :
    let values := .ofList [(⟨"Configuration"⟩, ["Debug", "Release"]), (⟨"Platform"⟩, ["x86", "x64"])]
    let d := build { parse "/proj/app.csproj" "<Project/>" with givenValues := some values }
    let e := Expr.parse "bin\\$(Configuration)-$(Platform)" 0
    let pieces := [.literal "bin\\".toList, .property "Configuration", .literal "-".toList,
      .property "Platform"]
    let names := Values.namesIn pieces
    e.pieces? = some pieces ∧ Plain pieces ∧
      d.pathsOf (some e) 0 none none = ["/proj/bin/Debug-x86", "/proj/bin/Debug-x64",
        "/proj/bin/Release-x86", "/proj/bin/Release-x64"] ∧
      ∃ tuples, Enumerates (names.map fun name => (d.values.choices name).length) tuples ∧
        d.pathsOf (some e) 0 none none = tuples.filterMap fun c =>
          (Path.resolve? (fill (d.values.pick names c) pieces) d.directory.toList).map
            String.ofList := by
  intro values d e pieces names
  have hpieces : e.pieces? = some pieces := by decide +kernel
  have hplain : Plain pieces := ⟨by decide, by decide, trivial⟩
  exact ⟨hpieces, hplain, by decide +kernel, (pathsOf_pieces d none _ 0 hpieces hplain).2.2⟩

/-- an escaped `$` before a parenthesis is read as a reference if a property follows -/
theorem pathsOf_escaped :
    let d := build (parse "/proj/app.csproj" "<Project/>")
    let e := Expr.parse "%24(A)x$(B)" 0
    let pieces := [.literal "$(A)x".toList, .property "B"]
    e.pieces? = some pieces ∧ ¬Plain pieces ∧
      Path.resolve? (fill (d.values.pick ["B"] [0]) pieces) d.directory.toList =
        some "/proj/$(A)x".toList ∧
      d.pathsOf (some e) 0 none none = ["/proj/x"] := by
  intro d e pieces
  have hopener : ['$', '('] <:+: "$(A)x".toList := by decide
  exact ⟨by decide +kernel, fun hplain => hplain.1 hopener, by decide +kernel, by decide +kernel⟩

end Document
end ProjectSense
