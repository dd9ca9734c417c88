import ProjectSense.Framework.Basic
import ProjectSense.Proofs.Text.Break
import ProjectSense.Proofs.Text.Number

/-!
# Framework versions, written and read

A version is written with dots, or without them, a digit a part.

* `FrameworkVersion.parse?_text`: what was written with dots is read again;
  `FrameworkVersion.text_readBack`: so each version has a text of its own.
* `FrameworkVersion.parseCompact?_compactText`: so are digits without dots.
* `FrameworkVersion.oneDigit_of_parseCompact?`: without dots no part is more than a digit.
-/

namespace ProjectSense
namespace FrameworkVersion

variable {v : FrameworkVersion} {n : UInt32} {ns : List UInt32} {c : Char} {cs : List Char}

/-! ### Parts -/

theorem ofParts?_parts (v : FrameworkVersion) : ofParts? v.parts = some v := by
  obtain ⟨major, minor, build, revision⟩ := v
  unfold parts
  split
  · rfl
  next hrevision =>
    obtain rfl := not_not.1 hrevision
    split
    · rfl
    next hbuild =>
      obtain rfl := not_not.1 hbuild
      rfl

theorem exists_parts (v : FrameworkVersion) : ∃ more, v.parts = v.major :: v.minor :: more := by
  unfold parts
  split
  · exact ⟨_, rfl⟩
  split <;> exact ⟨_, rfl⟩

theorem mem_of_mem_parts (hn : n ∈ v.parts) :
    n ∈ [v.major, v.minor, v.build, v.revision] := by
  unfold parts at hn
  split at hn
  · exact hn
  split at hn
  · exact List.mem_append_left [v.revision] hn
  · exact List.mem_append_left [v.build, v.revision] hn

/-- the parts of a version are those it was made of, and zeros -/
theorem mem_of_ofParts? (h : ofParts? ns = some v)
    (hn : n ∈ [v.major, v.minor, v.build, v.revision]) : n ∈ ns ∨ n = 0 := by
  unfold ofParts? at h
  split at h
  all_goals cases h
  all_goals simp only [List.mem_cons, List.not_mem_nil, or_false] at hn ⊢
  all_goals tauto

theorem toList_partText (n : UInt32) : (partText n).toList = Nat.toDigits 10 n.toNat :=
  Nat.toList_repr

theorem isDigit_of_mem_partText (h : c ∈ (partText n).toList) : c.isDigit = true :=
  Nat.isDigit_of_mem_toDigits (by decide) (by decide) (toList_partText n ▸ h)

theorem word?_partText (n : UInt32) : word? (partText n).toList = some n := by
  rw [toList_partText, word?_toDigits]

/-! ### Versions with dots -/

theorem toList_text (v : FrameworkVersion) :
    v.text.toList = ['.'].intercalate (v.parts.map fun n => (partText n).toList) := by
  rw [text, String.toList_intercalate, List.map_map]
  rfl

theorem splitOn_text (v : FrameworkVersion) :
    Text.splitOn (· == '.') v.text.toList = v.parts.map fun n => (partText n).toList := by
  have hdot : ∀ piece ∈ v.parts.map fun n => (partText n).toList, '.' ∉ piece := by
    intro piece hpiece hmem
    obtain ⟨n, -, rfl⟩ := List.mem_map.1 hpiece
    exact absurd (isDigit_of_mem_partText hmem) (by decide)
  rw [Text.splitOn_eq_splitOnP, toList_text]
  obtain ⟨more, hparts⟩ := exists_parts v
  exact List.splitOn_intercalate '.' hdot (by simp [hparts])

theorem parse?_text (v : FrameworkVersion) : parse? v.text.toList = some v := by
  have hwords : (v.parts.map fun n => (partText n).toList).mapM word? = some v.parts :=
    Text.mapM_eq_some_iff.2 (List.forall₂_map_left_iff.2
      (List.forall₂_same.2 fun n _ => word?_partText n))
  rw [parse?, splitOn_text, hwords]
  exact ofParts?_parts v

/-- A version is read from its text, which is therefore no other version's. -/
theorem text_readBack (v : FrameworkVersion) :
    parse? v.text.toList = some v ∧ ∀ w : FrameworkVersion, v.text = w.text ↔ v = w := by
  refine ⟨parse?_text v, fun w => ⟨fun h => ?_, congrArg text⟩⟩
  have hread := parse?_text w
  rw [← h, parse?_text] at hread
  exact Option.some.inj hread

/-- the character is one of those of which versions are written -/
def InText (c : Char) : Prop := c.isDigit = true ∨ c = '.'

instance : DecidablePred InText := fun _ => inferInstanceAs (Decidable (_ ∨ _))

theorem inText_of_mem_text (h : c ∈ v.text.toList) : InText c := by
  rw [toList_text] at h
  rcases Text.mem_intercalate h with h | ⟨piece, hpiece, h⟩
  · exact .inr (List.mem_singleton.1 h)
  · obtain ⟨n, -, rfl⟩ := List.mem_map.1 hpiece
    exact .inl (isDigit_of_mem_partText h)

theorem dot_mem_text (v : FrameworkVersion) : '.' ∈ v.text.toList := by
  obtain ⟨more, hparts⟩ := exists_parts v
  simp [toList_text, hparts]

theorem isDigit_of_mem_compactText (h : c ∈ (Framework.compactText v).toList) :
    c.isDigit = true := by
  rw [Framework.compactText, String.toList_join, List.flatMap_map, List.mem_flatMap] at h
  obtain ⟨n, -, h⟩ := h
  exact isDigit_of_mem_partText h

/-! ### Versions of digits -/

/-- every part is a single digit -/
def OneDigit (v : FrameworkVersion) : Prop :=
  ∀ n ∈ [v.major, v.minor, v.build, v.revision], n < 10

instance : DecidablePred OneDigit := fun _ => List.decidableBAll (· < 10) _

/-- the part that a character stands for -/
def digitPart? (c : Char) : Option UInt32 := (Number.digit? 10 c).map UInt32.ofNat

theorem digitPart?_digitChar (hn : n < 10) : digitPart? n.toNat.digitChar = some n := by
  have hdigit := isDigit_digitChar n.toNat (UInt32.lt_iff_toNat_lt.1 hn)
  rw [digitPart?, (digit?_eq_some_iff (by decide)).2 hdigit, Option.map_some, UInt32.ofNat_toNat]

theorem lt_of_digitPart? (h : digitPart? c = some n) : n < 10 := by
  obtain ⟨d, hd, rfl⟩ := Option.map_eq_some_iff.1 h
  have hlt : d < 10 := ((digit?_eq_some_iff (by decide)).1 hd).1
  exact (UInt32.ofNat_lt_iff_lt (hlt.trans (by decide)) (by decide)).2 hlt

/-- a digit for each part that is written -/
theorem toList_compactText (h : v.OneDigit) :
    (Framework.compactText v).toList = v.parts.map fun n => n.toNat.digitChar := by
  have hdigit : ∀ n ∈ v.parts, (partText n).toList = [n.toNat.digitChar] := by
    intro n hn
    have hlt : n.toNat < 10 := UInt32.lt_iff_toNat_lt.1 (h n (mem_of_mem_parts hn))
    rw [toList_partText, Nat.toDigits_of_lt_base hlt]
  rw [Framework.compactText, String.toList_join, List.flatMap_map, List.flatMap_congr hdigit]
  exact List.map_eq_flatMap.symm

theorem parseCompact?_compactText (h : v.OneDigit) :
    parseCompact? (Framework.compactText v).toList = some v := by
  have hdigits : (v.parts.map fun n => n.toNat.digitChar).mapM digitPart? = some v.parts :=
    Text.mapM_eq_some_iff.2 (List.forall₂_map_left_iff.2
      (List.forall₂_same.2 fun n hn => digitPart?_digitChar (h n (mem_of_mem_parts hn))))
  have hpart : (fun c => (Number.digit? 10 c).map UInt32.ofNat) = digitPart? := rfl
  have hmade := ofParts?_parts v
  rw [toList_compactText h, parseCompact?, hpart, hdigits]
  split
  · next hone => rw [Option.some.inj hone] at hmade; cases hmade
  · next hparts => rw [← Option.some.inj hparts, hmade]
  · next hnone => cases hnone

theorem lt_of_mapM_digitPart? (h : cs.mapM digitPart? = some ns) : ∀ n ∈ ns, n < 10 := by
  have hread := Text.mapM_eq_some_iff.1 h
  clear h
  induction hread with
  | nil => simp
  | cons hc _ ih => exact List.forall_mem_cons.2 ⟨lt_of_digitPart? hc, ih⟩

theorem oneDigit_of_parseCompact? (h : parseCompact? cs = some v) : v.OneDigit := by
  -- a version of one part is made apart from the others
  have hmade : ∃ ns, cs.mapM digitPart? = some ns ∧
      ∀ n ∈ [v.major, v.minor, v.build, v.revision], n ∈ ns ∨ n = 0 := by
    rw [parseCompact?] at h
    split at h
    · next a ha =>
      cases h
      exact ⟨[a], ha, by simp⟩
    · next ns _ hns => exact ⟨ns, hns, fun n hn => mem_of_ofParts? h hn⟩
    · cases h
  obtain ⟨ns, hns, hparts⟩ := hmade
  intro n hn
  rcases hparts n hn with hn | rfl
  · exact lt_of_mapM_digitPart? hns n hn
  · decide

end FrameworkVersion
end ProjectSense
