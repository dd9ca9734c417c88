import Mathlib.Data.List.Lex
import Mathlib.Data.List.Sort
import Mathlib.Data.List.Forall2
import Mathlib.Algebra.BigOperators.Group.List.Basic
import ProjectSense.Path.Template
import ProjectSense.Proofs.Path.Split
import ProjectSense.Proofs.Text.Name
import ProjectSense.Proofs.Text.NameMap

/-!
# The choices that a template goes through

The odometer advances from each choice to the one that follows it at once, so that a run from the
start goes through all choices in lexicographic order, the first name varying slowest.

* `Odometer.lt_positions_advance`, `Odometer.lt_or_eq_of_advance_none`: one advance.
* `Odometer.mem_positions_combinations`, `Odometer.pairwise_positions_combinations`: the run.
* `Values.expansions_reference`: the texts that a reference by itself stands for.
* `Values.expansions_eq`: the texts that a template stands for.
-/

namespace ProjectSense
namespace Odometer

variable {o next : Odometer} {c : List Nat}

/-- the numbers of the values that show -/
def positions (o : Odometer) : List Nat := o.map (·.position)

/-- one number for each wheel, of a value that it has -/
def Allows (o : Odometer) (c : List Nat) : Prop :=
  List.Forall₂ (fun i (w : Wheel) => i < w.values.length) c o

/-- the names and the values of the wheels, whatever shows -/
def labels (o : Odometer) : List (String × List String) := o.map fun w => (w.name, w.values)

theorem allows_positions (o : Odometer) : o.Allows o.positions := by
  induction o with
  | nil => exact .nil
  | cons w ws ih => exact .cons w.inRange ih

theorem allows_congr {p : Odometer} (h : p.labels = o.labels) : p.Allows c ↔ o.Allows c := by
  have hlabels : ∀ q : Odometer, q.Allows c ↔
      List.Forall₂ (fun i (l : String × List String) => i < l.2.length) c q.labels := by
    intro q
    rw [labels, List.forall₂_map_right_iff]
    rfl
  rw [hlabels, hlabels, h]

/-! ### One step -/

theorem labels_reset (o : Odometer) : (labels (o.map Wheel.reset)) = o.labels := by
  rw [labels, List.map_map]
  rfl

/-- turning changes neither names nor values -/
theorem labels_advance (h : o.advance = some next) : next.labels = o.labels := by
  induction o generalizing next with
  | nil => cases h
  | cons w ws ih =>
    obtain ⟨turned, hws, rfl⟩ | ⟨-, -, rfl⟩ := advance_cons h
    · exact congrArg ((w.name, w.values) :: ·) (ih hws)
    · exact congrArg ((w.name, w.values) :: ·) (labels_reset ws)

/-- no choice comes before the one from which all start -/
theorem not_lt_positions_reset (hc : o.Allows c) : ¬c < positions (o.map Wheel.reset) := by
  induction hc with
  | nil => exact List.not_lt_nil []
  | cons hi _ ih =>
    rw [List.map_cons, positions, List.map_cons, List.cons_lt_cons_iff]
    rintro (h | ⟨-, h⟩)
    · exact Nat.not_lt_zero _ h
    · exact ih h

/-- after the last choice comes no other -/
theorem lt_or_eq_of_advance_none (h : o.advance = none) (hc : o.Allows c) :
    c < o.positions ∨ c = o.positions := by
  induction hc with
  | nil => exact .inr rfl
  | @cons i w c ws hi _ ih =>
    obtain ⟨hws, hlast⟩ := advance_cons_none h
    rw [positions, List.map_cons, List.cons_lt_cons_iff, List.cons.injEq]
    have hrest := ih hws
    rw [positions] at hrest
    rcases Nat.lt_or_ge i w.position with hlt | hge
    · exact .inl (.inl hlt)
    · obtain rfl : i = w.position := by omega
      rcases hrest with hlt | heq
      · exact .inl (.inr ⟨rfl, hlt⟩)
      · exact .inr ⟨rfl, heq⟩

/-- an advance leads to the choice that follows at once -/
theorem lt_positions_advance (h : o.advance = some next) (hc : o.Allows c) :
    c < next.positions ↔ c < o.positions ∨ c = o.positions := by
  induction hc generalizing next with
  | nil => cases h
  | @cons i w c ws hi hc ih =>
    obtain ⟨turned, hws, rfl⟩ | ⟨hws, inRange, rfl⟩ := advance_cons h
    · have hrest := ih hws
      simp only [positions, List.map_cons, List.cons_lt_cons_iff, List.cons.injEq] at hrest ⊢
      rw [hrest]
      tauto
    · have hstart := not_lt_positions_reset hc
      have hlast := lt_or_eq_of_advance_none hws hc
      simp only [positions, List.map_cons, List.cons_lt_cons_iff, List.cons.injEq] at hstart hlast ⊢
      constructor
      · rintro (hlt | ⟨-, hlt⟩)
        · rcases Nat.lt_or_ge i w.position with hlt' | hge
          · exact .inl (.inl hlt')
          · obtain rfl : i = w.position := by omega
            rcases hlast with hlt' | heq
            · exact .inl (.inr ⟨rfl, hlt'⟩)
            · exact .inr ⟨rfl, heq⟩
        · exact absurd hlt hstart
      · rintro ((hlt | ⟨rfl, -⟩) | ⟨rfl, -⟩)
        · exact .inl (by omega)
        · exact .inl (Nat.lt_succ_self _)
        · exact .inl (Nat.lt_succ_self _)

/-! ### The run -/

theorem combinations_of_none (h : o.advance = none) : o.combinations = [o] := by
  rw [combinations]
  split
  · rfl
  · next hnext => rw [h] at hnext; cases hnext

theorem combinations_of_some (h : o.advance = some next) :
    o.combinations = o :: next.combinations := by
  rw [combinations]
  split
  · next hnone => rw [h] at hnone; cases hnone
  · next hnext =>
    obtain rfl := Option.some.inj (h.symm.trans hnext)
    rfl

/-- every run comes to an end: what holds of the last choice, and of a choice if it holds of the
next, holds of all -/
@[elab_as_elim]
theorem run_induction {P : Odometer → Prop} (last : ∀ o, o.advance = none → P o)
    (step : ∀ o next, o.advance = some next → P next → P o) (o : Odometer) : P o := by
  cases hadv : o.advance with
  | none => exact last o hadv
  | some next =>
    have := left_advance_lt hadv
    exact step o next hadv (run_induction last step next)
termination_by o.left

theorem labels_of_mem_combinations {p : Odometer} (h : p ∈ o.combinations) :
    p.labels = o.labels := by
  induction o using run_induction with
  | last o hadv =>
    rw [combinations_of_none hadv] at h
    rw [List.mem_singleton.1 h]
  | step o next hadv ih =>
    rw [combinations_of_some hadv] at h
    rcases List.mem_cons.1 h with rfl | h
    · rfl
    · exact (ih h).trans (labels_advance hadv)

theorem length_combinations (o : Odometer) : o.combinations.length = o.left + 1 := by
  induction o using run_induction with
  | last o hadv => rw [combinations_of_none hadv, left_of_advance_none hadv, List.length_singleton]
  | step o next hadv ih =>
    rw [combinations_of_some hadv, List.length_cons, ih, left_advance hadv]

/-- the choices that are gone through are those that do not come before the first -/
theorem mem_positions_combinations :
    c ∈ o.combinations.map positions ↔ o.Allows c ∧ ¬c < o.positions := by
  induction o using run_induction with
  | last o hadv =>
    rw [combinations_of_none hadv, List.map_singleton, List.mem_singleton]
    constructor
    · rintro rfl
      exact ⟨allows_positions o, List.lt_irrefl _⟩
    · rintro ⟨hc, hnot⟩
      exact (lt_or_eq_of_advance_none hadv hc).resolve_left hnot
  | step o next hadv ih =>
    rw [combinations_of_some hadv, List.map_cons, List.mem_cons, ih,
      allows_congr (labels_advance hadv)]
    constructor
    · rintro (rfl | ⟨hc, hnot⟩)
      · exact ⟨allows_positions o, List.lt_irrefl _⟩
      · exact ⟨hc, fun hlt => hnot ((lt_positions_advance hadv hc).2 (.inl hlt))⟩
    · rintro ⟨hc, hnot⟩
      by_cases heq : c = o.positions
      · exact .inl heq
      · refine .inr ⟨hc, fun hlt => ?_⟩
        rcases (lt_positions_advance hadv hc).1 hlt with hlt | heq'
        · exact hnot hlt
        · exact heq heq'

/-- each choice comes after those before it -/
theorem pairwise_positions_combinations (o : Odometer) :
    (o.combinations.map positions).Pairwise (· < ·) := by
  induction o using run_induction with
  | last o hadv =>
    rw [combinations_of_none hadv]
    exact List.pairwise_singleton _ _
  | step o next hadv ih =>
    rw [combinations_of_some hadv, List.map_cons]
    refine List.pairwise_cons.2 ⟨fun c hmem => ?_, ih⟩
    obtain ⟨hc, hnot⟩ := mem_positions_combinations.1 hmem
    rw [allows_congr (labels_advance hadv)] at hc
    rcases lt_trichotomy o.positions c with hlt | heq | hgt
    · exact hlt
    · exact absurd ((lt_positions_advance hadv hc).2 (.inr heq.symm)) hnot
    · exact absurd ((lt_positions_advance hadv hc).2 (.inl hgt)) hnot

/-- going through only as many choices as are wanted gives the first of all results -/
theorem collect_eq {α : Type} (f : Odometer → Option α) (limit : Nat) (o : Odometer) :
    o.collect f limit = (o.combinations.filterMap f).take limit := by
  induction o using run_induction generalizing limit with
  | last o hadv =>
    cases limit with
    | zero => rw [collect, List.take_zero]
    | succ limit =>
      rw [collect, combinations_of_none hadv]
      split
      · cases hf : f o <;> simp [hf]
      · next hnext => rw [hadv] at hnext; cases hnext
  | step o next hadv ih =>
    cases limit with
    | zero => rw [collect, List.take_zero]
    | succ limit =>
      rw [collect, combinations_of_some hadv]
      split
      · next hnone => rw [hadv] at hnone; cases hnone
      · next next' hnext =>
        obtain rfl := Option.some.inj (hadv.symm.trans hnext)
        cases hf : f o with
        | none => simp only [ih, List.filterMap_cons, hf]
        | some found => simp only [ih, List.filterMap_cons, hf, List.take_succ_cons]

end Odometer

/-- all sequences of numbers below the sizes, each once, in lexicographic order -/
structure Enumerates (sizes : List Nat) (tuples : List (List Nat)) : Prop where
  mem : ∀ c, c ∈ tuples ↔ List.Forall₂ (· < ·) c sizes
  sorted : tuples.Pairwise (· < ·)

theorem Enumerates.eq_range {n : Nat} {tuples : List (List Nat)} (h : Enumerates [n] tuples) :
    tuples = (List.range n).map fun i => [i] := by
  refine List.Pairwise.eq_of_mem_iff h.sorted ?_ fun c => ?_
  · refine List.pairwise_map.2 (List.pairwise_lt_range.imp fun hlt => ?_)
    exact List.cons_lt_cons_iff.2 (.inl hlt)
  · rw [h.mem, List.mem_map, List.forall₂_cons_right_iff]
    simp [eq_comm]

namespace TemplatePart

theorem fill_congr {f g : String → String} {parts : List TemplatePart}
    (h : ∀ name, property name ∈ parts → f name = g name) : fill f parts = fill g parts := by
  refine List.flatMap_congr fun part hpart => ?_
  cases part with
  | literal text => rfl
  | property name => exact congrArg String.toList (h name hpart)

end TemplatePart

namespace Values

variable (vs : Values) {a b name : String} {names : List String} {parts : List TemplatePart}

theorem choices_congr (h : sameName a b = true) : vs.choices a = vs.choices b := by
  have hfound : vs.find? ⟨a⟩ = vs.find? ⟨b⟩ := NameMap.find?_congr vs h
  rw [choices, choices, valuesOf, valuesOf, hfound]

/-- the value that a name has when each of `names` has the value of its number -/
def pick (names : List String) (c : List Nat) (name : String) : String :=
  (vs.choices name).getD (c.getD (names.findIdx (sameName · name)) 0) ""

/-- one value for each of the names, and none for others -/
def only (names : List String) (value : String → String) : Values :=
  .ofList (names.map fun name => (⟨name⟩, [value name]))

theorem pick_congr (names : List String) (c : List Nat) (h : sameName a b = true) :
    vs.pick names c a = vs.pick names c b := by
  have hsame : (sameName · a) = (sameName · b) := by
    funext n
    rw [sameName_comm n a, sameName_comm n b, sameName_congr h]
  rw [pick, pick, choices_congr vs h, hsame]

theorem covered_namesIn (h : TemplatePart.property name ∈ parts) :
    ∃ n ∈ namesIn parts, sameName n name = true :=
  exists_mem_distinctNames (List.mem_filterMap.2 ⟨_, h, rfl⟩)

/-! ### The choices of values -/

/-- the numbers of the values that the names are given, choice after choice -/
def picks (names : List String) : List (List Nat) :=
  (vs.odometer names).combinations.map Odometer.positions

theorem labels_odometer (names : List String) :
    (vs.odometer names).labels = names.map fun name => (name, vs.choices name) := by
  rw [Odometer.labels, odometer, List.map_map]
  rfl

theorem getD_positions_odometer (names : List String) (k : Nat) :
    (vs.odometer names).positions.getD k 0 = 0 := by
  induction names generalizing k with
  | nil => rfl
  | cons name names ih =>
    cases k with
    | zero => rfl
    | succ k => exact ih k

theorem reset_odometer (names : List String) :
    (vs.odometer names).map Wheel.reset = vs.odometer names := by
  rw [odometer, List.map_map]
  rfl

theorem enumerates_picks (names : List String) :
    Enumerates (names.map fun name => (vs.choices name).length) (vs.picks names) := by
  refine ⟨fun c => ?_, Odometer.pairwise_positions_combinations _⟩
  have hallows : (vs.odometer names).Allows c ↔
      List.Forall₂ (· < ·) c (names.map fun name => (vs.choices name).length) := by
    rw [Odometer.Allows, odometer, List.forall₂_map_right_iff, List.forall₂_map_right_iff]
  rw [picks, Odometer.mem_positions_combinations, hallows]
  refine ⟨And.left, fun hc => ⟨hc, ?_⟩⟩
  have hnot := Odometer.not_lt_positions_reset (hallows.2 hc)
  rwa [reset_odometer] at hnot

theorem ways_odometer (names : List String) :
    (vs.odometer names).ways = (names.map fun name => (vs.choices name).length).prod := by
  induction names with
  | nil => rfl
  | cons name names ih =>
    rw [List.map_cons, List.prod_cons, ← ih]
    rfl

theorem length_picks (names : List String) :
    (vs.picks names).length = (names.map fun name => (vs.choices name).length).prod := by
  have hleft := Odometer.left_reset (vs.odometer names)
  rw [reset_odometer] at hleft
  rw [picks, List.length_map, Odometer.length_combinations, hleft, ways_odometer]

/-- a name has the value that its wheel shows -/
theorem valueOf_eq_pick {o : Odometer} (h : o.labels = (vs.odometer names).labels)
    (hname : ∃ n ∈ names, sameName n name = true) :
    o.valueOf name = vs.pick names o.positions name := by
  rw [labels_odometer] at h
  induction names generalizing o with
  | nil => simp at hname
  | cons n names ih =>
    obtain ⟨w, ws, rfl⟩ : ∃ w ws, o = w :: ws := by
      cases o with
      | nil => cases h
      | cons w ws => exact ⟨w, ws, rfl⟩
    obtain ⟨hlabel, hlabels⟩ := List.cons.inj h
    obtain ⟨rfl, hvalues⟩ := Prod.mk.inj hlabel
    cases hsame : sameName w.name name with
    | true =>
      have hchoices : w.values = vs.choices name := hvalues.trans (choices_congr vs hsame)
      rw [Odometer.valueOf, List.find?_cons, hsame, pick, List.findIdx_cons, hsame, ← hchoices]
      simp [Wheel.value, Odometer.positions, w.inRange]
    | false =>
      have hrest : ∃ n ∈ names, sameName n name = true := by
        obtain ⟨n, hmem, hn⟩ := hname
        rcases List.mem_cons.1 hmem with rfl | hmem
        · rw [hsame] at hn; cases hn
        · exact ⟨n, hmem, hn⟩
      have hvalue := ih hlabels hrest
      rw [Odometer.valueOf] at hvalue ⊢
      rw [List.find?_cons, hsame, hvalue, pick, pick, List.findIdx_cons, hsame]
      simp [Odometer.positions]

/-- the texts of a template, choice by choice -/
theorem expansions_eq_map (template : List Char) :
    let parts := TemplatePart.split template
    vs.expansions template = (vs.picks (namesIn parts)).map fun c =>
      TemplatePart.fill (vs.pick (namesIn parts) c) parts := by
  intro parts
  rw [expansions, picks, List.map_map]
  refine List.map_congr_left fun o ho => TemplatePart.fill_congr fun name hname => ?_
  exact valueOf_eq_pick vs (Odometer.labels_of_mem_combinations ho) (covered_namesIn hname)

/-- the first texts are had without the others -/
theorem expansionsFrom_eq (template : List Char) (i n : Nat) :
    vs.expansionsFrom template i n = ((vs.expansions template).take (i + n)).drop i := by
  rw [expansionsFrom, expansions, Odometer.collect_eq, List.filterMap_eq_map']

/-- the first paths are had without the others -/
theorem firstPaths_eq (template base : List Char) (limit : Nat) :
    vs.firstPaths template base limit = (vs.paths template base).take limit := by
  rw [firstPaths, paths, expansions, Odometer.collect_eq, List.filterMap_map]
  rfl

/-! ### One value for each name -/

theorem choices_only {value : String → String}
    (hvalue : ∀ a b, sameName a b = true → value a = value b)
    (hname : ∃ n ∈ names, sameName n name = true) :
    (only names value).choices name = [value name] := by
  have hfound : (only names value).valuesOf name = [value name] := by
    rw [valuesOf, only, NameMap.find?_ofList]
    cases hfind : ((names.map fun name => ((⟨name⟩ : Name), [value name])).reverse.find?
        fun p => p.1.same ⟨name⟩) with
    | none =>
      obtain ⟨n, hmem, hsame⟩ := hname
      exact absurd hsame (List.find?_eq_none.1 hfind (⟨n⟩, [value n])
        (List.mem_reverse.2 (List.mem_map.2 ⟨n, hmem, rfl⟩)))
    | some p =>
      have hsame := List.find?_some hfind
      obtain ⟨n, -, rfl⟩ := List.mem_map.1 (List.mem_reverse.1 (List.mem_of_find?_eq_some hfind))
      exact congrArg (fun v => [v]) (hvalue n name hsame)
  have hsome : (only names value).valuesOf name ≠ [] := by simp [hfound]
  rw [choices_of_ne_nil hsome, hfound]

/-- with one value for each name a template stands for one text -/
theorem expansions_only {value : String → String}
    (hvalue : ∀ a b, sameName a b = true → value a = value b) (template : List Char) :
    let parts := TemplatePart.split template
    (only (namesIn parts) value).expansions template = [TemplatePart.fill value parts] := by
  intro parts
  let single := only (namesIn parts) value
  have hchoices : ∀ {n}, (∃ m ∈ namesIn parts, sameName m n = true) →
      single.choices n = [value n] := choices_only hvalue
  have hone : (single.picks (namesIn parts)).length = 1 := by
    rw [length_picks]
    refine List.prod_eq_one fun k hk => ?_
    obtain ⟨n, hn, rfl⟩ := List.mem_map.1 hk
    rw [hchoices ⟨n, hn, sameName_refl n⟩, List.length_singleton]
  have hpicks : single.picks (namesIn parts) = [(single.odometer (namesIn parts)).positions] := by
    obtain ⟨c, hc⟩ := List.length_eq_one_iff.1 hone
    rw [picks, Odometer.combinations, List.map_cons] at hc ⊢
    rw [(List.cons.inj hc).2]
  rw [expansions_eq_map, hpicks, List.map_singleton]
  refine congrArg (fun text => [text]) (TemplatePart.fill_congr fun name hname => ?_)
  rw [pick, getD_positions_odometer, hchoices (covered_namesIn hname)]
  rfl

/-! ### A reference by itself -/

/-- a reference by itself stands for the values of its property -/
theorem expansions_reference (hname : ∀ c ∈ name.toList, Text.isBlank c = false ∧ c ≠ ')') :
    vs.expansions (TemplatePart.write [.property name]) = (vs.choices name).map String.toList := by
  have hform : TemplatePart.WellFormed [.property name] :=
    ⟨List.isChain_singleton _, by simpa using hname⟩
  have hsplit : TemplatePart.split (TemplatePart.write [.property name]) = [.property name] :=
    TemplatePart.split_write hform trivial
  have hnames : namesIn [.property name] = [name] := namesIn_eq_eraseDupsBy _
  rw [expansions_eq_map, hsplit, hnames, (enumerates_picks vs [name]).eq_range, List.map_map]
  refine List.ext_getElem (by simp) fun i _ hi => ?_
  rw [List.length_map] at hi
  simp [pick, hi]

/-- A template stands for the texts of all choices of one value for each name in it, in
lexicographic order, the name that occurs first varying slowest; a name has one value throughout a
text, however it is spelled.  The values of one choice by themselves give back its text alone. -/
theorem expansions_eq (template : List Char) :
    let parts := TemplatePart.split template
    let names := namesIn parts
    names = (parts.filterMap TemplatePart.name?).eraseDupsBy sameName ∧ NamesApart names ∧
      (∀ name, .property name ∈ parts → ∃ n ∈ names, sameName n name = true) ∧
      (vs.expansions template).length = (names.map fun name => (vs.choices name).length).prod ∧
      ∃ tuples, Enumerates (names.map fun name => (vs.choices name).length) tuples ∧
        vs.expansions template =
          tuples.map (fun c => TemplatePart.fill (vs.pick names c) parts) ∧
        ∀ c ∈ tuples,
          (∀ a b, sameName a b = true → vs.pick names c a = vs.pick names c b) ∧
          (only names (vs.pick names c)).expansions template =
            [TemplatePart.fill (vs.pick names c) parts] := by
  intro parts names
  have htexts := expansions_eq_map vs template
  refine ⟨namesIn_eq_eraseDupsBy parts, distinctNames_apart _, fun name => covered_namesIn, ?_,
    vs.picks names, enumerates_picks vs names, htexts, fun c _ => ?_⟩
  · rw [htexts, List.length_map, length_picks]
  · have hsame : ∀ a b, sameName a b = true → vs.pick names c a = vs.pick names c b :=
      fun a b => pick_congr vs names c
    exact ⟨hsame, expansions_only hsame template⟩

end Values
end ProjectSense
