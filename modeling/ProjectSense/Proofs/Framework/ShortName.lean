import Mathlib
import ProjectSense.Proofs.Framework.Version
import ProjectSense.Proofs.Text.Blank
import ProjectSense.Proofs.Text.Case

/-!
# Short names of frameworks

A short name is the beginning of a form, a version and perhaps a suffix after a hyphen.  A framework
that was read has a short name of its own, which is read as the same framework, unless that is a
.NET Framework with a part of two digits in its version: no dots stand between its parts.

* `Framework.parse?_written`: reading a form, a version and a suffix.
* `Framework.specific_of_parse?`: which frameworks are read.
* `Framework.parse?_shortName_iff`: which frameworks are read again from their short names.
-/

namespace ProjectSense
namespace Framework

open Text (isBlank trim)
open FrameworkVersion (InText OneDigit)

variable {t identifier : String} {f : Framework} {form : String × String} {c : Char}
  {cs front digits : List Char} {version : FrameworkVersion} {suffix : Option (List Char)}

/-! ### Characters -/

theorem isBlank_toLower (c : Char) : isBlank c.toLower = isBlank c := by
  by_cases hc : c.toNat < 128
  · exact of_ascii (p := fun c => isBlank c.toLower = isBlank c) (by decide +kernel) hc
  · rw [toLower_of_not_ascii hc]

/-- the character can stand in front of the hyphen -/
structure Plain (c : Char) : Prop where
  lower : c.toLower = c
  notBlank : isBlank c = false
  notHyphen : c ≠ '-'

instance : DecidablePred Plain := fun c =>
  decidable_of_iff (c.toLower = c ∧ isBlank c = false ∧ c ≠ '-')
    ⟨fun ⟨hlower, hblank, hhyphen⟩ => ⟨hlower, hblank, hhyphen⟩,
      fun h => ⟨h.lower, h.notBlank, h.notHyphen⟩⟩

theorem toNat_lt_of_inText (h : InText c) : c.toNat < 128 := by
  rcases h with h | rfl
  · exact (Char.isDigit_iff_toNat.1 h).2.trans_lt (by decide)
  · decide

theorem plain_of_inText (h : InText c) : Plain c :=
  of_ascii (p := fun c => InText c → Plain c) (by decide +kernel) (toNat_lt_of_inText h) h

theorem not_isLower_of_inText (h : InText c) : ¬c.isLower = true :=
  of_ascii (p := fun c => InText c → ¬c.isLower = true) (by decide +kernel) (toNat_lt_of_inText h) h

/-! ### The forms -/

theorem plain_of_mem_form (h : form ∈ shortForms) : ∀ c ∈ form.1.toList, Plain c := by
  have hall : ∀ form ∈ shortForms, form.1.toList.all (fun c => Plain c) = true := by decide +kernel
  simpa using hall form h

theorem isLower_of_mem_form (h : form ∈ shortForms) : ∀ c ∈ form.1.toList, c.isLower = true := by
  have hall : ∀ form ∈ shortForms, form.1.toList.all Char.isLower = true := by decide +kernel
  exact List.all_eq_true.1 (hall form h)

/-- letters in front of other characters stand in front of these -/
theorem prefix_append_iff (hfront : ∀ c ∈ front, c.isLower = true)
    (hdigits : ∀ c ∈ digits, InText c) : front <+: cs ++ digits ↔ front <+: cs := by
  refine ⟨fun h => ?_, fun h => h.trans (List.prefix_append cs digits)⟩
  rcases List.prefix_or_prefix_of_prefix h (List.prefix_append cs digits) with h' | ⟨more, rfl⟩
  · exact h'
  cases more with
  | nil => rw [List.append_nil]
  | cons c more =>
    have hmem : c ∈ digits :=
      ((List.prefix_append_right_inj cs).1 h).subset List.mem_cons_self
    exact absurd (hfront c (by simp)) (not_isLower_of_inText (hdigits c hmem))

/-- the forms are in an order in which each is found -/
theorem find?_form (h : form ∈ shortForms) (hdigits : ∀ c ∈ digits, InText c) :
    shortForms.find? (fun g => g.1.toList.isPrefixOf (form.1.toList ++ digits)) = some form := by
  have hshort : ∀ g ∈ shortForms, g.1.toList.isPrefixOf (form.1.toList ++ digits) =
      g.1.toList.isPrefixOf form.1.toList := by
    intro g hg
    rw [Bool.eq_iff_iff, List.isPrefixOf_iff_prefix, List.isPrefixOf_iff_prefix]
    exact prefix_append_iff (isLower_of_mem_form hg) hdigits
  rw [List.find?_congr hshort]
  exact (by decide +kernel : ∀ form ∈ shortForms,
    shortForms.find? (fun g => g.1.toList.isPrefixOf form.1.toList) = some form) form h

theorem find?_identifier (h : form ∈ shortForms) :
    shortForms.find? (fun g => sameName g.2 form.2) = some form :=
  (by decide +kernel : ∀ form ∈ shortForms,
    shortForms.find? (fun g => sameName g.2 form.2) = some form) form h

/-! ### Suffixes -/

/-- the suffix behind its hyphen -/
def hyphenated : Option (List Char) → List Char
  | none => []
  | some cs => '-' :: cs

/-- the text as it is read: lowered, and without blanks at its end -/
structure AsRead (cs : List Char) : Prop where
  lower : ∀ c ∈ cs, c.toLower = c
  notBlank : ∀ c ∈ cs.getLast?, isBlank c = false

theorem AsRead.map_toLower (h : AsRead cs) : cs.map Char.toLower = cs :=
  (List.map_congr_left h.lower).trans (List.map_id cs)

theorem asRead_hyphenated (hsuffix : ∀ cs ∈ suffix, AsRead cs) : AsRead (hyphenated suffix) := by
  cases suffix with
  | none => exact ⟨by simp [hyphenated], by simp [hyphenated]⟩
  | some cs =>
    obtain ⟨hlower, hblank⟩ := hsuffix cs rfl
    refine ⟨List.forall_mem_cons.2 ⟨by decide, hlower⟩, fun c hc => ?_⟩
    rw [hyphenated, List.getLast?_cons, Option.mem_some] at hc
    cases hlast : cs.getLast? with
    | none => rw [← hc, hlast]; decide
    | some d => rw [← hc, hlast]; exact hblank d hlast

theorem asRead_append (hfront : ∀ c ∈ front, Plain c) (h : AsRead cs) : AsRead (front ++ cs) := by
  refine ⟨fun c hc => ?_, fun c hc => ?_⟩
  · exact (List.mem_append.1 hc).elim (fun hc => (hfront c hc).lower) (h.lower c)
  · rw [List.getLast?_append, Option.mem_def, Option.or_eq_some_iff] at hc
    rcases hc with hc | ⟨-, hc⟩
    · exact h.notBlank c hc
    · exact (hfront c (List.mem_of_getLast? hc)).notBlank

theorem not_blank_head?_written (hfront : ∀ c ∈ front, Plain c) :
    ∀ c ∈ (front ++ hyphenated suffix).head?, isBlank c = false := by
  cases front with
  | cons c front => simpa using (hfront c List.mem_cons_self).notBlank
  | nil =>
    cases suffix with
    | none => simp [hyphenated]
    | some cs => simpa [hyphenated] using (by decide : isBlank '-' = false)

theorem cutSuffix_written (hfront : ∀ c ∈ front, Plain c) (hsuffix : ∀ cs ∈ suffix, AsRead cs) :
    cutSuffix (foldCase (trimmed (String.ofList (front ++ hyphenated suffix)))) =
      (front, suffix) := by
  have hread := asRead_append hfront (asRead_hyphenated hsuffix)
  have hhyphen : '-' ∉ front := fun hmem => (hfront '-' hmem).notHyphen rfl
  rw [foldCase, trimmed, String.toList_ofList, String.toList_ofList,
    Text.trim_of_ends (not_blank_head?_written hfront) hread.notBlank, hread.map_toLower, cutSuffix]
  cases suffix with
  | none => rw [hyphenated, List.append_nil, Text.breakOn_char_none hhyphen]
  | some cs => exact Text.breakOn_char hhyphen cs

theorem asRead_of_cutSuffix (h : (cutSuffix (foldCase (trimmed t))).2 = some cs) :
    AsRead cs := by
  rcases hcut : cutSuffix (foldCase (trimmed t)) with ⟨before, after⟩
  rw [hcut] at h
  obtain rfl : after = some cs := h
  have heq := Text.breakOn_eq hcut
  refine ⟨fun c hc => ?_, fun c hc => ?_⟩
  · have hmem : c ∈ foldCase (trimmed t) := heq ▸ List.mem_append_right _ hc
    obtain ⟨d, -, rfl⟩ := List.mem_map.1 hmem
    exact Char.toLower_toLower_eq_toLower d
  · have hlast : (foldCase (trimmed t)).getLast? = some c := by
      rw [heq, List.getLast?_append, hc]
      rfl
    rw [foldCase, trimmed, String.toList_ofList, List.getLast?_map] at hlast
    obtain ⟨d, hd, rfl⟩ := Option.map_eq_some_iff.1 hlast
    rw [isBlank_toLower]
    exact Text.not_blank_getLast?_trim t.toList d hd

/-! ### Reading -/

/-- the framework of a form.  From 5.0 on the .NET Framework is the core platform, and that has no
profiles. -/
def ofForm (identifier : String) (suffix : Option (List Char)) (version : FrameworkVersion) :
    Framework :=
  let identifier :=
    if identifier = netFramework && 5 ≤ version.major then netCoreApp else identifier
  let profile := if identifier = netCoreApp then none else suffix
  ⟨identifier, version, String.ofList (capitalized (profile.getD []))⟩

theorem parse?_eq (t : String) : parse? t =
    (shortForms.find? fun form =>
        form.1.toList.isPrefixOf (cutSuffix (foldCase (trimmed t))).1).bind fun form =>
      (shortVersion? ((cutSuffix (foldCase (trimmed t))).1.drop form.1.length)).map
        (ofForm form.2 (cutSuffix (foldCase (trimmed t))).2) := by
  rw [parse?]
  cases hform : shortForms.find? fun form =>
      form.1.toList.isPrefixOf (cutSuffix (foldCase (trimmed t))).1 with
  | none => simp only [hform]; rfl
  | some form =>
    simp only [hform, Option.bind_some]
    cases shortVersion? ((cutSuffix (foldCase (trimmed t))).1.drop form.1.length) <;> rfl

theorem parse?_written (hform : form ∈ shortForms) (hdigits : ∀ c ∈ digits, InText c)
    (hsuffix : ∀ cs ∈ suffix, AsRead cs) :
    parse? (String.ofList (form.1.toList ++ digits ++ hyphenated suffix)) =
      (shortVersion? digits).map (ofForm form.2 suffix) := by
  have hfront : ∀ c ∈ form.1.toList ++ digits, Plain c := fun c hc =>
    (List.mem_append.1 hc).elim (plain_of_mem_form hform c) fun hc => plain_of_inText (hdigits c hc)
  rw [parse?_eq, cutSuffix_written hfront hsuffix, find?_form hform hdigits, Option.bind_some,
    ← String.length_toList, List.drop_left]

theorem ofForm_modern (h : 5 ≤ version.major) :
    ofForm netFramework suffix version = ⟨netCoreApp, version, ""⟩ := by
  simp [ofForm, h, capitalized]

theorem ofForm_core : ofForm netCoreApp suffix version = ⟨netCoreApp, version, ""⟩ := by
  simp [ofForm, capitalized]

theorem ofForm_other (hcore : identifier ≠ netCoreApp)
    (hold : identifier = netFramework → version.major < 5) :
    ofForm identifier suffix version =
      ⟨identifier, version, String.ofList (capitalized (suffix.getD []))⟩ := by
  have hmodern : ¬(identifier = netFramework && 5 ≤ version.major) = true := by
    simpa using hold
  simp [ofForm, hmodern, hcore]

/-- the frameworks that short names name -/
inductive Specific : Framework → Prop
  | core (version : FrameworkVersion) : Specific ⟨netCoreApp, version, ""⟩
  | other {form : String × String} {version : FrameworkVersion} {cs : List Char}
      (hform : form ∈ shortForms) (hcore : form.2 ≠ netCoreApp)
      (hold : form.2 = netFramework → version.major < 5) (hsuffix : AsRead cs) :
      Specific ⟨form.2, version, String.ofList (capitalized cs)⟩

theorem specific_of_parse? (h : parse? t = some f) : Specific f := by
  rw [parse?_eq, Option.bind_eq_some_iff] at h
  obtain ⟨form, hform, h⟩ := h
  obtain ⟨version, -, rfl⟩ := Option.map_eq_some_iff.1 h
  by_cases hcore : form.2 = netCoreApp
  · rw [hcore, ofForm_core]
    exact .core version
  by_cases hmodern : form.2 = netFramework ∧ 5 ≤ version.major
  · rw [hmodern.1, ofForm_modern hmodern.2]
    exact .core version
  have hold : form.2 = netFramework → version.major < 5 := fun hid =>
    UInt32.not_le.1 fun hle => hmodern ⟨hid, hle⟩
  rw [ofForm_other hcore hold]
  refine .other (List.mem_of_find?_eq_some hform) hcore hold ?_
  cases hcut : (cutSuffix (foldCase (trimmed t))).2 with
  | none => exact ⟨by simp, by simp⟩
  | some cs => exact asRead_of_cutSuffix hcut

/-! ### Writing -/

/-- the suffix that the short name writes for the profile -/
def suffix? (f : Framework) : Option (List Char) :=
  if f.profile.isEmpty then none else some (foldCase f.profile)

theorem toList_shortName (f : Framework) :
    f.shortName.toList = f.baseName.toList ++ hyphenated f.suffix? := by
  unfold shortName suffix?
  split
  · simp [hyphenated]
  · simp [hyphenated, lowered]

/-- the version in the short name -/
def versionText (f : Framework) : List Char :=
  if f.identifier = netFramework then (compactText f.version).toList else f.version.text.toList

theorem inText_of_mem_versionText (h : c ∈ f.versionText) : InText c := by
  unfold versionText at h
  split at h
  · exact .inl (FrameworkVersion.isDigit_of_mem_compactText h)
  · exact FrameworkVersion.inText_of_mem_text h

theorem shortVersion?_text (v : FrameworkVersion) : shortVersion? v.text.toList = some v := by
  rw [shortVersion?, if_pos (List.contains_iff_mem.2 (FrameworkVersion.dot_mem_text v)),
    FrameworkVersion.parse?_text]

/-- without dots a version is read just if its parts are digits -/
theorem shortVersion?_compactText_iff (v : FrameworkVersion) :
    shortVersion? (compactText v).toList = some v ↔ v.OneDigit := by
  have hdot : ¬(compactText v).toList.contains '.' = true := fun h =>
    absurd (FrameworkVersion.isDigit_of_mem_compactText (List.contains_iff_mem.1 h)) (by decide)
  rw [shortVersion?, if_neg hdot]
  exact ⟨FrameworkVersion.oneDigit_of_parseCompact?, FrameworkVersion.parseCompact?_compactText⟩

theorem shortVersion?_versionText_iff (f : Framework) :
    shortVersion? f.versionText = some f.version ↔
      (f.identifier = netFramework → f.version.OneDigit) := by
  unfold versionText
  split
  · next hid => rw [shortVersion?_compactText_iff, imp_iff_right hid]
  · next hid => simp [shortVersion?_text, hid]

theorem foldCase_capitalized (h : AsRead cs) :
    foldCase (String.ofList (capitalized cs)) = cs := by
  have hcase : (capitalized cs).map Char.toLower = cs.map Char.toLower := by
    cases cs with
    | nil => rfl
    | cons c cs => simp [capitalized]
  rw [foldCase, String.toList_ofList, hcase, h.map_toLower]

theorem suffix?_capitalized (identifier : String) (version : FrameworkVersion) (h : AsRead cs) :
    (∀ l ∈ suffix? ⟨identifier, version, String.ofList (capitalized cs)⟩, AsRead l) ∧
      (suffix? ⟨identifier, version, String.ofList (capitalized cs)⟩).getD [] = cs := by
  simp only [suffix?, foldCase_capitalized h]
  cases cs with
  | nil => simp [capitalized]
  | cons c cs => simp [capitalized, h]

theorem baseName_modern (hid : f.identifier = netCoreApp) (h : 5 ≤ f.version.major) :
    f.baseName.toList = "net".toList ++ f.versionText := by
  have hne : f.identifier ≠ netFramework := by rw [hid]; decide
  rw [baseName, if_neg hne, if_pos (by simp [hid, h]), versionText, if_neg hne,
    String.toList_append]

theorem baseName_form (hform : form ∈ shortForms) (hid : f.identifier = form.2)
    (hold : f.identifier = netCoreApp → f.version.major < 5) :
    f.baseName.toList = form.1.toList ++ f.versionText := by
  by_cases hnet : f.identifier = netFramework
  · have hbegin : form.1 = "net" := (by decide : ∀ form ∈ shortForms,
      form.2 = netFramework → form.1 = "net") form hform (hid.symm.trans hnet)
    rw [baseName, if_pos hnet, versionText, if_pos hnet, String.toList_append, hbegin]
  · have hmodern : ¬(f.identifier = netCoreApp && 5 ≤ f.version.major) = true := by
      simpa using hold
    rw [baseName, if_neg hnet, if_neg hmodern, hid, find?_identifier hform, versionText,
      if_neg hnet, String.toList_append]

/-- the short name is a form, a version and a suffix that name the framework -/
theorem Specific.exists_form (h : Specific f) : ∃ form ∈ shortForms,
    f.baseName.toList = form.1.toList ++ f.versionText ∧ (∀ cs ∈ f.suffix?, AsRead cs) ∧
      ofForm form.2 f.suffix? f.version = f := by
  cases h with
  | core version =>
    have hnone : ∀ cs ∈ suffix? ⟨netCoreApp, version, ""⟩, AsRead cs := by simp [suffix?]
    by_cases hmodern : 5 ≤ version.major
    · exact ⟨("net", netFramework), by decide, baseName_modern rfl hmodern, hnone,
        ofForm_modern hmodern⟩
    · exact ⟨("netcoreapp", netCoreApp), by decide,
        baseName_form (by decide) rfl fun _ => UInt32.not_le.1 hmodern, hnone, ofForm_core⟩
  | @other form version cs hform hcore hold hsuffix =>
    obtain ⟨hread, hsame⟩ := suffix?_capitalized form.2 version hsuffix
    exact ⟨form, hform, baseName_form hform rfl fun hid => absurd hid hcore, hread,
      by rw [ofForm_other hcore hold, hsame]⟩

theorem parse?_shortName_iff (h : parse? t = some f) :
    parse? f.shortName = some f ↔ (f.identifier = netFramework → f.version.OneDigit) := by
  obtain ⟨form, hform, hname, hsuffix, hmade⟩ := (specific_of_parse? h).exists_form
  have hread : parse? f.shortName = (shortVersion? f.versionText).map (ofForm form.2 f.suffix?) := by
    rw [← parse?_written hform (fun c hc => inText_of_mem_versionText hc) hsuffix, ← hname,
      ← toList_shortName, String.ofList_toList]
  rw [hread, ← shortVersion?_versionText_iff, Option.map_eq_some_iff]
  constructor
  · rintro ⟨version, hversion, hmade'⟩
    have : version = f.version := congrArg Framework.version hmade'
    rw [hversion, this]
  · exact fun hversion => ⟨f.version, hversion, hmade⟩

theorem parse?_shortName_client :
    parse? " Net40-Client\n" = some ⟨netFramework, ⟨4, 0, 0, 0⟩, "Client"⟩ ∧
      parse? (shortName ⟨netFramework, ⟨4, 0, 0, 0⟩, "Client"⟩) =
        some ⟨netFramework, ⟨4, 0, 0, 0⟩, "Client"⟩ := by
  have hread : parse? " Net40-Client\n" = some ⟨netFramework, ⟨4, 0, 0, 0⟩, "Client"⟩ := by
    decide +kernel
  exact ⟨hread, (parse?_shortName_iff hread).2 fun _ => by decide⟩

/-- `net4.10` is written `net410`, which is version 4.1 -/
theorem parse?_shortName_twoDigits :
    parse? "net4.10" = some ⟨netFramework, ⟨4, 10, 0, 0⟩, ""⟩ ∧
      shortName ⟨netFramework, ⟨4, 10, 0, 0⟩, ""⟩ = "net410" ∧
      parse? "net410" = some ⟨netFramework, ⟨4, 1, 0, 0⟩, ""⟩ := by
  decide +kernel

end Framework
end ProjectSense
