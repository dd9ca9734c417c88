import ProjectSense.Text.Break
import ProjectSense.Text.Blank
import ProjectSense.Text.NameMap
import ProjectSense.Path.Normal

/-!
# Path templates

A template is literal text with `$(Name)` references.  It stands for one text per choice of a value
for every name in it.  The choices are gone through as on an odometer: every name has a wheel that
shows one of its values, and the wheel of the name that occurs first turns slowest.

* `TemplatePart.fill_literal`, `TemplatePart.fill_property`: the text of a template, part by part.
* `Odometer.advance`: the next choice; `Odometer.left_advance_lt`: the choices come to an end.
* `Odometer.combinations`: all choices in order; `Odometer.collect`: only as many as are wanted.
* `Values.choices_of_nil`, `Values.choices_of_ne_nil`: the values that a name can take.
* `Values.namesIn_eq_eraseDupsBy`: the names of the references, in order of first occurrence.
* `Values.expansions`, `Values.paths`: the texts and the paths that a template stands for.
-/

namespace ProjectSense

inductive TemplatePart where
  | literal (text : List Char)
  | property (name : String)
deriving DecidableEq, Repr

namespace TemplatePart

/-- literal text, unless there is none -/
def literals (text : List Char) : List TemplatePart := if text = [] then [] else [literal text]

/-- the literal runs and references of a template; a reference without its end is literal -/
def split (cs : List Char) : List TemplatePart :=
  match h : Text.breakOn ['$', '('] cs with
  | (before, some after) =>
    match g : Text.breakOn [')'] after with
    | (name, some rest) =>
      have := Text.length_breakOn_lt (List.cons_ne_nil _ _) h
      have := Text.length_breakOn_lt (List.cons_ne_nil _ _) g
      literals before ++ property (String.ofList (Text.trim name)) :: split rest
    | (_, none) => literals cs
  | (_, none) => literals cs
termination_by cs.length

/-- the name of a reference -/
def name? : TemplatePart → Option String
  | literal _ => none
  | property name => some name

/-- the text of the parts with `value name` in the place of each reference -/
def fill (value : String → String) (parts : List TemplatePart) : List Char :=
  parts.flatMap fun
    | literal text => text
    | property name => (value name).toList

section
variable (value : String → String) (parts : List TemplatePart)

@[simp] theorem fill_nil : fill value [] = [] := rfl

@[simp] theorem fill_literal (text : List Char) :
    fill value (literal text :: parts) = text ++ fill value parts := List.flatMap_cons

@[simp] theorem fill_property (name : String) :
    fill value (property name :: parts) = (value name).toList ++ fill value parts :=
  List.flatMap_cons

end

end TemplatePart

/-- a name with the values that it can take, one of which is showing -/
structure Wheel where
  name : String
  values : List String
  position : Nat
  inRange : position < values.length
deriving DecidableEq, Repr

namespace Wheel

/-- the value that is showing -/
def value (w : Wheel) : String := w.values.get ⟨w.position, w.inRange⟩

/-- the wheel with its next value showing, if there is one -/
def turn? (w : Wheel) : Option Wheel :=
  if h : w.position + 1 < w.values.length then some ⟨w.name, w.values, w.position + 1, h⟩ else none

/-- the wheel with its first value showing -/
def reset (w : Wheel) : Wheel := ⟨w.name, w.values, 0, Nat.zero_lt_of_lt w.inRange⟩

end Wheel

/-- a choice of a value for every name; the last wheel turns fastest -/
abbrev Odometer := List Wheel

namespace Odometer

/-- the next choice: the last wheel turns, and a wheel that has shown all its values starts over and
turns the one before it; `none` after the last choice -/
def advance : Odometer → Option Odometer
  | [] => none
  | w :: ws =>
    match advance ws with
    | some turned => some (w :: turned)
    | none => w.turn?.map (· :: ws.map Wheel.reset)

/-- how many choices there are -/
def ways : Odometer → Nat
  | [] => 1
  | w :: ws => w.values.length * ways ws

/-- how many choices come after the one showing -/
def left : Odometer → Nat
  | [] => 0
  | w :: ws => (w.values.length - 1 - w.position) * ways ws + left ws

/-- what an advance does: it turns a wheel and sets those behind it to their start -/
theorem advance_cons {w : Wheel} {ws next : Odometer} (h : advance (w :: ws) = some next) :
    (∃ turned, ws.advance = some turned ∧ next = w :: turned) ∨
      ws.advance = none ∧ ∃ inRange : w.position + 1 < w.values.length,
        next = ⟨w.name, w.values, w.position + 1, inRange⟩ :: ws.map Wheel.reset := by
  cases hws : ws.advance with
  | some turned =>
    simp only [advance, hws, Option.some.injEq] at h
    exact .inl ⟨turned, rfl, h.symm⟩
  | none =>
    simp only [advance, hws, Wheel.turn?] at h
    split at h
    · next inRange => exact .inr ⟨rfl, inRange, (Option.some.inj h).symm⟩
    · cases h

/-- no advance is left once all wheels show their last values -/
theorem advance_cons_none {w : Wheel} {ws : Odometer} (h : advance (w :: ws) = none) :
    ws.advance = none ∧ w.values.length ≤ w.position + 1 := by
  cases hws : ws.advance with
  | some turned => simp [advance, hws] at h
  | none =>
    simp only [advance, hws, Wheel.turn?] at h
    split at h
    · cases h
    · next hlast => exact ⟨rfl, Nat.le_of_not_lt hlast⟩

theorem ways_reset (o : Odometer) : ways (o.map Wheel.reset) = ways o := by
  induction o with
  | nil => rfl
  | cons w ws ih => exact congrArg (w.values.length * ·) ih

theorem ways_advance {o next : Odometer} (h : o.advance = some next) : next.ways = o.ways := by
  induction o generalizing next with
  | nil => cases h
  | cons w ws ih =>
    obtain ⟨turned, hws, rfl⟩ | ⟨-, inRange, rfl⟩ := advance_cons h
    · exact congrArg (w.values.length * ·) (ih hws)
    · exact congrArg (w.values.length * ·) (ways_reset ws)

/-- from the start all choices but one are left -/
theorem left_reset (o : Odometer) : left (o.map Wheel.reset) + 1 = ways o := by
  induction o with
  | nil => rfl
  | cons w ws ih =>
    obtain ⟨n, hn⟩ := Nat.exists_eq_add_one.2 (Nat.zero_lt_of_lt w.inRange)
    simp only [List.map_cons, left, ways, Wheel.reset, ways_reset, hn, Nat.add_sub_cancel,
      Nat.sub_zero, Nat.succ_mul]
    omega

theorem left_of_advance_none {o : Odometer} (h : o.advance = none) : o.left = 0 := by
  induction o with
  | nil => rfl
  | cons w ws ih =>
    obtain ⟨hws, hlast⟩ := advance_cons_none h
    have hturn : w.values.length - 1 - w.position = 0 := by omega
    rw [left, ih hws, hturn, Nat.zero_mul]

theorem left_advance {o next : Odometer} (h : o.advance = some next) : o.left = next.left + 1 := by
  induction o generalizing next with
  | nil => cases h
  | cons w ws ih =>
    obtain ⟨turned, hws, rfl⟩ | ⟨hws, inRange, rfl⟩ := advance_cons h
    · have := ih hws
      simp only [left, ways_advance hws]
      omega
    · have hstart := left_reset ws
      have hend := left_of_advance_none hws
      have hturn : w.values.length - 1 - w.position =
          (w.values.length - 1 - (w.position + 1)) + 1 := by omega
      simp only [left, ways_reset, hturn, Nat.succ_mul]
      omega

theorem left_advance_lt {o next : Odometer} (h : o.advance = some next) : next.left < o.left :=
  left_advance h ▸ Nat.lt_succ_self next.left

/-- the choices from the one showing on, in order -/
def combinations (o : Odometer) : List Odometer :=
  o :: match h : o.advance with
    | none => []
    | some next =>
      have := left_advance_lt h
      combinations next
termination_by o.left

/-- what `f` makes of the choices from the one showing on, until there are `limit` results -/
def collect {α : Type} (f : Odometer → Option α) : Nat → Odometer → List α
  | 0, _ => []
  | limit + 1, o =>
    match h : o.advance with
    | none => (f o).toList
    | some next =>
      have := left_advance_lt h
      match f o with
      | some found => found :: collect f limit next
      | none => collect f (limit + 1) next
termination_by _ o => o.left

/-- the value that a name has -/
def valueOf (o : Odometer) (name : String) : String :=
  ((o.find? fun w => sameName w.name name).map Wheel.value).getD ""

/-- the text of a template under a choice -/
def instantiate (o : Odometer) (parts : List TemplatePart) : List Char :=
  TemplatePart.fill o.valueOf parts

end Odometer

/-- the values that properties can take -/
abbrev Values := NameMap (List String)

namespace Values

def valuesOf (vs : Values) (name : String) : List String := (vs.find? ⟨name⟩).getD []

/-- the choices for a name; a property without values is empty -/
def choices (vs : Values) (name : String) : List String :=
  match vs.valuesOf name with
  | [] => [""]
  | values => values

theorem choices_of_nil {vs : Values} {name : String} (h : vs.valuesOf name = []) :
    vs.choices name = [""] := by
  rw [choices, h]

theorem choices_of_ne_nil {vs : Values} {name : String} (h : vs.valuesOf name ≠ []) :
    vs.choices name = vs.valuesOf name := by
  unfold choices
  split
  · next hnil => exact absurd hnil h
  · rfl

theorem length_choices_pos (vs : Values) (name : String) : 0 < (vs.choices name).length := by
  by_cases h : vs.valuesOf name = []
  · rw [choices_of_nil h]
    exact Nat.one_pos
  · rw [choices_of_ne_nil h]
    exact List.length_pos_iff.2 h

/-- the names in a template, each once, in order of first occurrence -/
def namesIn (parts : List TemplatePart) : List String :=
  distinctNames (parts.filterMap TemplatePart.name?)

/-- literal text names nothing, and a name stands where it is referred to first -/
theorem namesIn_eq_eraseDupsBy (parts : List TemplatePart) :
    namesIn parts = (parts.filterMap TemplatePart.name?).eraseDupsBy sameName :=
  distinctNames_eq_eraseDupsBy _

/-- the first choice of values for names -/
def odometer (vs : Values) (names : List String) : Odometer :=
  names.map fun name => ⟨name, vs.choices name, 0, vs.length_choices_pos name⟩

/-- how many texts a template stands for -/
def count (vs : Values) (template : List Char) : Nat :=
  (vs.odometer (namesIn (TemplatePart.split template))).ways

/-- all texts that a template stands for -/
def expansions (vs : Values) (template : List Char) : List (List Char) :=
  let parts := TemplatePart.split template
  (vs.odometer (namesIn parts)).combinations.map (·.instantiate parts)

/-- the texts of the numbers from `i` on, `n` of them -/
def expansionsFrom (vs : Values) (template : List Char) (i n : Nat) : List (List Char) :=
  let parts := TemplatePart.split template
  ((vs.odometer (namesIn parts)).collect (fun o => some (o.instantiate parts)) (i + n)).drop i

/-- the paths that a template stands for, seen from a directory -/
def paths (vs : Values) (template base : List Char) : List String :=
  (vs.expansions template).filterMap fun t => (Path.resolve? t base).map String.ofList

/-- the first paths that a template stands for -/
def firstPaths (vs : Values) (template base : List Char) (limit : Nat) : List String :=
  let parts := TemplatePart.split template
  (vs.odometer (namesIn parts)).collect
    (fun o => (Path.resolve? (o.instantiate parts) base).map String.ofList) limit

end Values
end ProjectSense
