import Mathlib.Data.List.Nodup
import ProjectSense.Text.Name

/-!
# Lists of names

Gathering names keeps one spelling of each, the first.

* `NamesApart.eq_of_same`: where no two names are the same, a name stands for what it names.
* `NamesApart.countP_eq_one`: and it stands there once.
* `distinctNames_apart`: no two of the names are the same.
* `exists_mem_distinctNames`: every name that was gathered is the same as one of them.
* `empty_mem_distinctNames`: the empty name is one of them if it was gathered.
-/

namespace ProjectSense

theorem sameName_comm (a b : String) : sameName a b = sameName b a := by
  rw [Bool.eq_iff_iff, sameName_iff, sameName_iff]
  exact eq_comm

theorem sameName_trans {a b c : String} (h : sameName a b = true) (g : sameName b c = true) :
    sameName a c = true := by
  rw [sameName_iff] at *
  exact h.trans g

/-- the same names are the same as any other -/
theorem sameName_congr {a b : String} (h : sameName a b = true) (c : String) :
    sameName a c = sameName b c := by
  rw [Bool.eq_iff_iff, sameName_iff, sameName_iff, sameName_iff.1 h]

theorem sameName_empty {a : String} : sameName a "" = true ↔ a = "" := by
  simp [foldCase]

/-- an empty name is the same as no other -/
theorem eq_empty_congr {a b : String} (h : sameName a b = true) : a = "" ↔ b = "" := by
  rw [← sameName_empty, sameName_congr h, sameName_empty]

/-- no two of them are the same name -/
def NamesApart (names : List String) : Prop :=
  names.Pairwise fun a b => sameName a b = false

/-- where names are apart, what has the same name is the same -/
theorem NamesApart.eq_of_same {α : Type} {name : α → String} {l : List α}
    (h : NamesApart (l.map name)) {a b : α} (ha : a ∈ l) (hb : b ∈ l)
    (hsame : sameName (name a) (name b) = true) : a = b := by
  have hfolded : (l.map fun c => foldCase (name c)).Nodup := by
    refine List.pairwise_map.2 ((List.pairwise_map.1 h).imp fun hne heq => ?_)
    rw [sameName_iff.2 heq] at hne
    cases hne
  exact List.inj_on_of_nodup_map hfolded ha hb (sameName_iff.1 hsame)

/-- where names are apart, a name that is there is there once -/
theorem NamesApart.countP_eq_one {names : List String} (h : NamesApart names) {v : String}
    (hv : ∃ w ∈ names, sameName w v = true) : names.countP (sameName · v) = 1 := by
  obtain ⟨w, hw, hsame⟩ := hv
  obtain ⟨front, back, rfl⟩ := List.append_of_mem hw
  have hothers : ∀ n ∈ front ++ back, sameName n v = false := by
    intro n hn
    have hapart : sameName n w = false := by
      obtain ⟨-, hback, hfront⟩ := List.pairwise_append.1 h
      rcases List.mem_append.1 hn with hn | hn
      · exact hfront n hn w List.mem_cons_self
      · rw [sameName_comm]
        exact (List.pairwise_cons.1 hback).1 n hn
    rw [sameName_comm, ← sameName_congr hsame, sameName_comm]
    exact hapart
  have hnone : ∀ part : List String, (∀ n ∈ part, n ∈ front ++ back) →
      part.countP (sameName · v) = 0 := fun part hpart =>
    List.countP_eq_zero.2 fun n hn => Bool.eq_false_iff.1 (hothers n (hpart n hn))
  rw [List.countP_append, List.countP_cons_of_pos (p := (sameName · v)) hsame,
    hnone front fun _ => List.mem_append_left back, hnone back fun _ => List.mem_append_right front]

theorem NamesApart.addName {names : List String} (h : NamesApart names) (v : String) :
    NamesApart (addName names v) := by
  unfold ProjectSense.addName
  split
  · exact h
  · next hnew =>
    refine List.pairwise_append.2 ⟨h, List.pairwise_singleton _ _, fun a ha b hb => ?_⟩
    obtain rfl := List.mem_singleton.1 hb
    rw [sameName_comm]
    exact Bool.eq_false_iff.2 fun hsame => hnew (List.any_eq_true.2 ⟨a, ha, hsame⟩)

theorem exists_mem_addName (names : List String) (v : String) :
    ∃ name ∈ addName names v, sameName name v = true := by
  unfold addName
  split
  · next hold =>
    obtain ⟨name, hmem, hsame⟩ := List.any_eq_true.1 hold
    exact ⟨name, hmem, sameName_comm v name ▸ hsame⟩
  · exact ⟨v, by simp, sameName_refl v⟩

theorem mem_addName_of_mem {names : List String} {name : String} (h : name ∈ names) (v : String) :
    name ∈ addName names v := by
  unfold addName
  split
  · exact h
  · exact List.mem_append_left _ h

theorem mem_of_mem_addName {names : List String} {v name : String} (h : name ∈ addName names v) :
    name ∈ names ∨ name = v := by
  unfold addName at h
  split at h
  · exact .inl h
  · simpa using h

theorem NamesApart.foldl_addName {names : List String} (h : NamesApart names)
    (values : List String) : NamesApart (values.foldl ProjectSense.addName names) := by
  induction values generalizing names with
  | nil => exact h
  | cons v values ih => exact ih (h.addName v)

theorem distinctNames_apart (values : List String) : NamesApart (distinctNames values) :=
  NamesApart.foldl_addName .nil values

theorem exists_mem_foldl_addName (names values : List String) {v : String}
    (h : v ∈ names ∨ v ∈ values) :
    ∃ name ∈ values.foldl addName names, sameName name v = true := by
  induction values generalizing names v with
  | nil => exact ⟨v, by simpa using h, sameName_refl v⟩
  | cons w values ih =>
    rcases h with h | h
    · exact ih _ (.inl (mem_addName_of_mem h w))
    rcases List.mem_cons.1 h with rfl | h
    · obtain ⟨name, hmem, hsame⟩ := exists_mem_addName names v
      obtain ⟨kept, hkept, hsame'⟩ := ih _ (.inl hmem)
      exact ⟨kept, hkept, sameName_trans hsame' hsame⟩
    · exact ih _ (.inr h)

theorem exists_mem_distinctNames {values : List String} {v : String} (h : v ∈ values) :
    ∃ name ∈ distinctNames values, sameName name v = true :=
  exists_mem_foldl_addName [] values (.inr h)

theorem mem_of_mem_foldl_addName {names values : List String} {v : String}
    (h : v ∈ values.foldl addName names) : v ∈ names ∨ v ∈ values := by
  induction values generalizing names with
  | nil => exact .inl h
  | cons w values ih =>
    rcases ih h with h | h
    · rcases mem_of_mem_addName h with h | rfl
      · exact .inl h
      · exact .inr List.mem_cons_self
    · exact .inr (List.mem_cons_of_mem w h)

theorem mem_of_mem_distinctNames {values : List String} {v : String}
    (h : v ∈ distinctNames values) : v ∈ values :=
  (mem_of_mem_foldl_addName h).resolve_left List.not_mem_nil

/-- nothing else stands for the empty name -/
theorem empty_mem_distinctNames {values : List String} :
    "" ∈ distinctNames values ↔ "" ∈ values := by
  refine ⟨mem_of_mem_distinctNames, fun h => ?_⟩
  obtain ⟨name, hmem, hsame⟩ := exists_mem_distinctNames h
  rwa [sameName_empty.1 hsame] at hmem

end ProjectSense
