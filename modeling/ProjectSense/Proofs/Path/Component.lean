import Mathlib.Order.Basic
import Mathlib.Data.List.Lex
import ProjectSense.Path.Component
import ProjectSense.Proofs.Path.Normal

/-!
# The components of a joined path

A name that is joined to a path is one more component, whatever slashes and dots the path ends with.
Paths are ordered by their components, so that what stands in a folder stands together.

* `Path.components_join`: one name; `Path.components_pathOf`: a chain of names.
* `Path.Before`: the order; `Path.before_pathOf`: what stands under the smaller name comes first.
-/

namespace ProjectSense
namespace Path

variable {dir back name : List Char}

/-- what an entry of a folder can be called -/
structure IsEntryName (name : List Char) : Prop where
  isName : IsName name
  slash : '/' ∉ name

instance : Decidable (IsEntryName name) :=
  decidable_of_iff ((name ≠ [] ∧ name ≠ ['.'] ∧ name ≠ ['.', '.']) ∧ '/' ∉ name)
    ⟨fun h => ⟨h.1, h.2⟩, fun h => ⟨h.isName, h.slash⟩⟩

/-- nothing cuts a name -/
theorem IsEntryName.splitOn (h : IsEntryName name) : Text.splitOn isSlash name = [name] :=
  Text.splitOn_eq_singleton (Text.beq_of_not_mem h.slash)

theorem join_name (h : IsEntryName name) (dir : List Char) :
    join dir name = if dir = [] || dir.getLast? = some '/' then dir ++ name
      else dir ++ '/' :: name :=
  if_neg fun hhead => h.slash (List.mem_of_mem_head? hhead)

theorem join_ne_nil (h : IsEntryName name) (dir : List Char) : join dir name ≠ [] := by
  rw [join_name h]
  split <;> simp [h.isName.1]

/-- the name is the last piece of the path; where the path ended with a slash, it takes the place of
the empty piece behind the slash -/
theorem splitOn_join (h : IsEntryName name) (hdir : dir ≠ []) :
    ∃ pieces, Text.splitOn isSlash (join dir name) = pieces ++ [name] ∧
      (Text.splitOn isSlash dir = pieces ∨ Text.splitOn isSlash dir = pieces ++ [[]]) := by
  rw [join_name h]
  by_cases hslash : dir.getLast? = some '/'
  · obtain ⟨front, rfl⟩ := List.getLast?_eq_some_iff.1 hslash
    refine ⟨Text.splitOn isSlash front, ?_, .inr (Text.splitOn_append front rfl [])⟩
    rw [if_pos (by simp), List.append_assoc, List.singleton_append, Text.splitOn_append front rfl,
      h.splitOn]
  · refine ⟨Text.splitOn isSlash dir, ?_, .inl rfl⟩
    rw [if_neg (by simp [hdir, hslash]), Text.splitOn_append dir rfl, h.splitOn]

/-! ### Components -/

/-- the components of a path that begins with neither a slash nor a dot -/
def named (path : List Char) : List Component :=
  ((Text.splitOn isSlash path).filter fun p => !isNoise p).map ofPiece

theorem components_eq (path : List Char) :
    components path = lead (splitLead path).1 ++ named (splitLead path).2 := rfl

theorem named_append (front back : List Char) :
    named (front ++ '/' :: back) = named front ++ named back := by
  rw [named, Text.splitOn_append front rfl, List.filter_append, List.map_append]
  rfl

theorem named_name (h : IsEntryName name) : named name = [.named name] := by
  rw [named, h.splitOn]
  simp [isNoise, ofPiece, h.isName.1, h.isName.2.1, h.isName.2.2]

/-- a slash behind a path changes nothing in front of it -/
theorem splitLead_append (h : dir ≠ []) (back : List Char) :
    splitLead (dir ++ '/' :: back) = ((splitLead dir).1, (splitLead dir).2 ++ '/' :: back) := by
  fun_cases splitLead dir with
  | case1 => rfl
  | case2 => rfl
  | case3 => rfl
  | case4 dir hroot hhere hinner =>
    obtain ⟨c, cs, rfl⟩ := List.exists_cons_of_ne_nil h
    rw [splitLead]
    · rintro rest ⟨⟩
      exact hroot cs rfl
    · intro heq
      cases cs <;> cases heq
    · intro rest heq
      obtain ⟨rfl, hrest⟩ := List.cons.inj heq
      cases cs with
      | nil => exact hhere rfl
      | cons d cs =>
        obtain ⟨rfl, -⟩ := List.cons.inj hrest
        exact hinner cs rfl

theorem components_append (h : dir ≠ []) (back : List Char) :
    components (dir ++ '/' :: back) = components dir ++ named back := by
  rw [components_eq, splitLead_append h, named_append, ← List.append_assoc]
  rfl

theorem components_name (h : IsEntryName name) : components name = [.named name] := by
  have hlead : splitLead name = ([], name) := by
    rw [splitLead]
    · rintro rest rfl
      exact h.slash List.mem_cons_self
    · exact h.isName.2.1
    · rintro rest rfl
      exact h.slash (List.mem_cons_of_mem _ List.mem_cons_self)
  rw [components_eq, hlead, named_name h]
  rfl

theorem components_join (dir : List Char) (h : IsEntryName name) :
    components (join dir name) = components dir ++ [.named name] := by
  rw [join_name h]
  by_cases hnil : dir = []
  · rw [if_pos (by simp [hnil]), hnil, List.nil_append, components_name h]
    rfl
  by_cases hslash : dir.getLast? = some '/'
  · -- the path ends with the slash that would come between
    obtain ⟨front, rfl⟩ := List.getLast?_eq_some_iff.1 hslash
    rw [if_pos (by simp), List.append_assoc, List.singleton_append]
    by_cases hfront : front = []
    · rw [hfront, List.nil_append, components_eq, splitLead, named_name h]
      rfl
    · have hend : components (front ++ ['/']) = components front ++ [] :=
        components_append hfront []
      rw [hend, List.append_nil, components_append hfront, named_name h]
  · rw [if_neg (by simp [hnil, hslash]), components_append hnil, named_name h]

/-! ### The order of paths -/

namespace Component

/-- the root, then `.`, then `..`, then names -/
def rank : Component → Nat
  | root => 0
  | here => 1
  | up => 2
  | named _ => 3

/-- names by their characters -/
inductive Before : Component → Component → Prop
  | rank {a b : Component} (h : a.rank < b.rank) : Before a b
  | named {a b : List Char} (h : a < b) : Before (.named a) (.named b)

theorem not_before_self (c : Component) : ¬c.Before c := by
  rintro (h | h)
  · exact Nat.lt_irrefl _ h
  · exact List.lt_irrefl _ h

end Component

/-- where the paths part, the first one ends or has the smaller component -/
def Before (a b : String) : Prop :=
  List.Lex Component.Before (components a.toList) (components b.toList)

/-- a path does not stand before itself, however it is spelled -/
theorem Before.not_samePath {a b : String} (h : Before a b) : samePath a b = false := by
  have hne : components a.toList ≠ components b.toList := by
    intro heq
    rw [Before, heq] at h
    exact List.lex_irrefl Component.not_before_self _ h
  simp [samePath, hne]

/-! ### Chains of names -/

/-- the path on from a folder by names -/
def pathOf (dir : String) (names : List String) : String := names.foldl joinPath dir

theorem components_pathOf (dir : String) {names : List String}
    (h : ∀ n ∈ names, IsEntryName n.toList) :
    components (pathOf dir names).toList =
      components dir.toList ++ names.map fun n => .named n.toList := by
  induction names generalizing dir with
  | nil => simp [pathOf]
  | cons n names ih =>
    obtain ⟨hn, hnames⟩ := List.forall_mem_cons.1 h
    have hjoin :
        components (joinPath dir n).toList = components dir.toList ++ [.named n.toList] := by
      rw [joinPath, String.toList_ofList, components_join _ hn]
    rw [pathOf, List.foldl_cons, ← pathOf, ih _ hnames, hjoin]
    simp

/-- different chains of names lead to different paths -/
theorem eq_of_samePath_pathOf (dir : String) {as bs : List String}
    (ha : ∀ n ∈ as, IsEntryName n.toList) (hb : ∀ n ∈ bs, IsEntryName n.toList)
    (h : samePath (pathOf dir as) (pathOf dir bs) = true) : as = bs := by
  have hsame := of_decide_eq_true h
  rw [components_pathOf dir ha, components_pathOf dir hb] at hsame
  refine List.map_injective_iff.2 (fun m n heq => ?_) (List.append_cancel_left hsame)
  exact String.toList_injective (Component.named.inj heq)

/-- what stands under the smaller of two names comes first -/
theorem before_pathOf (dir : String) {a b : String} {as bs : List String} (hlt : a < b)
    (ha : ∀ n ∈ a :: as, IsEntryName n.toList) (hb : ∀ n ∈ b :: bs, IsEntryName n.toList) :
    Before (pathOf dir (a :: as)) (pathOf dir (b :: bs)) := by
  rw [Before, components_pathOf dir ha, components_pathOf dir hb]
  refine List.Lex.append_left _ (List.Lex.rel (.named ?_)) _
  exact hlt

end Path
end ProjectSense
