import ProjectSense.Document.Sdk
import ProjectSense.Proofs.Text.Blank
import ProjectSense.Proofs.Text.Break

/-!
# SDK references, written and read

What is read as a reference has a form in which nothing is left to trim or to cut.  A reference of
that form has one text, from which it is read again.

* `SdkReference.WellFormed`: the form; `SdkReference.wellFormed_of_parse?`: what is read has it.
* `SdkReference.parse?_text`: a reference of that form is read from its text.
* `SdkReference.parse?_rewritten`: both, for every text that is read.
-/

namespace ProjectSense
namespace SdkReference

variable {sdk : SdkReference} {t name version : List Char}

/-- text between slashes that nothing is trimmed off -/
structure IsPart (part : List Char) : Prop where
  ne_nil : part ≠ []
  trim : Text.trim part = part
  slash : '/' ∉ part

/-- a name, and a version or a least version or neither; a version holds no `=` -/
structure WellFormed (sdk : SdkReference) : Prop where
  name : IsPart sdk.name.toList
  single : sdk.version = none ∨ sdk.minimum = none
  version : ∀ v, sdk.version = some v → IsPart v.toList ∧ '=' ∉ v.toList
  minimum : ∀ v, sdk.minimum = some v → IsPart v.toList

/-! ### Parts -/

theorem isPart_trim (hne : Text.trim t ≠ []) (hslash : '/' ∉ t) : IsPart (Text.trim t) :=
  ⟨hne, Text.trim_trim t, fun h => hslash ((Text.trim_infix t).subset h)⟩

/-- between parts at either end nothing is trimmed -/
theorem trim_between (hname : IsPart name) (hversion : IsPart version) (middle : List Char) :
    Text.trim (name ++ middle ++ version) = name ++ middle ++ version := by
  refine Text.trim_of_ends ?_ ?_
  · rw [List.append_assoc, List.head?_append_of_ne_nil _ hname.ne_nil, ← hname.trim]
    exact Text.not_blank_head?_trim name
  · rw [List.getLast?_append_of_ne_nil _ hversion.ne_nil, ← hversion.trim]
    exact Text.not_blank_getLast?_trim version

theorem splitOn_part (h : '/' ∉ t) : Text.splitOn (· == '/') t = [t] :=
  Text.splitOn_eq_singleton (Text.beq_of_not_mem h)

theorem IsPart.plain {s : String} (h : IsPart s.toList) : s ≠ "" ∧ trimmed s = s := by
  refine ⟨fun hs => h.ne_nil (by rw [hs]; rfl), ?_⟩
  rw [trimmed, h.trim, String.ofList_toList]

theorem slash_not_mem {part : List Char} (h : part ∈ Text.splitOn (· == '/') t) : '/' ∉ part :=
  fun hmem => by simpa using Text.not_sep_of_mem_splitOn h '/' hmem

/-! ### What is read -/

theorem wellFormed_of_parseVersion? (hname : IsPart name) (ht : '/' ∉ t)
    (h : parseVersion? name (Text.trim t) = some sdk) : sdk.WellFormed := by
  unfold parseVersion? at h
  split at h
  · cases h
  · next hne =>
    have hversion := isPart_trim hne ht
    split at h
    · next before hbreak =>
      obtain rfl := Option.some.inj h
      have hequals := Text.not_mem_of_breakOn_none hbreak
      exact ⟨by simpa using hname, .inr rfl, by simpa using ⟨hversion, hequals⟩, by simp⟩
    · next key rest hbreak =>
      dsimp only at h
      split at h
      · next hleast =>
        obtain rfl := Option.some.inj h
        have hrest : '/' ∉ rest := by
          intro hmem
          refine hversion.slash ?_
          rw [Text.breakOn_eq hbreak]
          exact List.mem_append_right _ hmem
        have hminimum := isPart_trim hleast.2 hrest
        exact ⟨by simpa using hname, .inl rfl, by simp, by simpa using hminimum⟩
      · cases h

/-- nothing is left to trim or to cut in what is read -/
theorem wellFormed_of_parse? {s : String} (h : parse? s = some sdk) : sdk.WellFormed := by
  unfold parse? at h
  split at h
  · next part hparts =>
    have hslash : '/' ∉ part := slash_not_mem (hparts ▸ List.mem_cons_self)
    dsimp only at h
    split at h
    · cases h
    · next hne =>
      obtain rfl := Option.some.inj h
      exact ⟨by simpa using isPart_trim hne hslash, .inl rfl, by simp, by simp⟩
  · next part v hparts =>
    have hslash : '/' ∉ part := slash_not_mem (hparts ▸ List.mem_cons_self)
    have hv : '/' ∉ v := slash_not_mem (hparts ▸ List.mem_cons_of_mem _ List.mem_cons_self)
    dsimp only at h
    split at h
    · cases h
    · next hne => exact wellFormed_of_parseVersion? (isPart_trim hne hslash) hv h
  · cases h

/-! ### What is written -/

theorem parseVersion?_version (hne : t ≠ []) (hequals : '=' ∉ t) :
    parseVersion? name t = some ⟨String.ofList name, some (String.ofList t), none⟩ := by
  rw [parseVersion?, if_neg hne, Text.breakOn_char_none hequals]

theorem parseVersion?_minimum (h : IsPart t) :
    parseVersion? name (['m', 'i', 'n', '='] ++ t) =
      some ⟨String.ofList name, none, some (String.ofList t)⟩ := by
  have hequals : '=' ∉ ['m', 'i', 'n'] := by decide
  have hkey : Text.breakOn ['='] (['m', 'i', 'n', '='] ++ t) = (['m', 'i', 'n'], some t) :=
    Text.breakOn_char hequals t
  have hmin : (Text.trim ['m', 'i', 'n']).map Char.toLower = ['m', 'i', 'n'] := by decide
  rw [parseVersion?, if_neg (by simp), hkey]
  simp [hmin, h.trim, h.ne_nil]

theorem parse?_name (h : IsPart name) :
    parse? (String.ofList name) = some ⟨String.ofList name, none, none⟩ := by
  rw [parse?, String.toList_ofList, h.trim, splitOn_part h.slash]
  simp [h.trim, h.ne_nil]

/-- a name and what is written behind it are read one after the other -/
theorem parse?_slash (hname : IsPart name) (hversion : IsPart version) :
    parse? (String.ofList (name ++ ['/'] ++ version)) = parseVersion? name version := by
  have hparts : Text.splitOn (· == '/') (name ++ ['/'] ++ version) = [name, version] := by
    rw [List.append_assoc, List.singleton_append, Text.splitOn_append _ rfl,
      splitOn_part hname.slash, splitOn_part hversion.slash]
    rfl
  rw [parse?, String.toList_ofList, trim_between hname hversion, hparts]
  simp [hname.trim, hname.ne_nil, hversion.trim]

theorem isPart_minimum (h : IsPart t) : IsPart (['m', 'i', 'n', '='] ++ t) := by
  have hmin : IsPart ['m', 'i', 'n'] := ⟨by decide, by decide, by decide⟩
  refine ⟨by simp, trim_between hmin h ['='], ?_⟩
  rw [List.mem_append, not_or]
  exact ⟨by decide, h.slash⟩

theorem parse?_text (h : sdk.WellFormed) : parse? sdk.text = some sdk := by
  obtain ⟨name, version, minimum⟩ := sdk
  obtain ⟨hname, hsingle, hversion, hminimum⟩ := h
  cases version with
  | some v =>
    obtain ⟨hpart, hequals⟩ := hversion v rfl
    obtain rfl : minimum = none := hsingle.resolve_left (by simp)
    have htext : text ⟨name, some v, none⟩ = String.ofList (name.toList ++ ['/'] ++ v.toList) := by
      simp [text]
    rw [htext, parse?_slash hname hpart, parseVersion?_version hpart.ne_nil hequals]
    simp
  | none =>
    cases minimum with
    | some v =>
      have hpart := hminimum v rfl
      have htext : text ⟨name, none, some v⟩ =
          String.ofList (name.toList ++ ['/'] ++ (['m', 'i', 'n', '='] ++ v.toList)) := by
        simp [text, ← String.toList_inj]
      rw [htext, parse?_slash hname (isPart_minimum hpart), parseVersion?_minimum hpart]
      simp
    | none =>
      have htext : text ⟨name, none, none⟩ = String.ofList name.toList := by
        simp [text]
      rw [htext, parse?_name hname]
      simp

/-- What a text is read as has a name that is not empty, holds no `/` and has no blanks at its
ends, and a version or a least version but not both, neither of them empty or with blanks at its
ends; and it is read again from the text that it writes. -/
theorem parse?_rewritten {s : String} (h : parse? s = some sdk) :
    (sdk.name ≠ "" ∧ trimmed sdk.name = sdk.name ∧ '/' ∉ sdk.name.toList) ∧
      (sdk.version = none ∨ sdk.minimum = none) ∧
      (∀ v, sdk.version = some v ∨ sdk.minimum = some v → v ≠ "" ∧ trimmed v = v) ∧
      parse? sdk.text = some sdk := by
  have hform := wellFormed_of_parse? h
  obtain ⟨hne, htrimmed⟩ := hform.name.plain
  refine ⟨⟨hne, htrimmed, hform.name.slash⟩, hform.single, fun v hv => ?_, parse?_text hform⟩
  rcases hv with hv | hv
  · exact (hform.version v hv).1.plain
  · exact (hform.minimum v hv).plain

/-- blanks at every joint, the key in another case, and `=` in the least version -/
theorem parse?_rewritten_minimum :
    let sdk : SdkReference := ⟨"My Sdk", none, some "1=2"⟩
    parse? " My Sdk / Min = 1=2 " = some sdk ∧ sdk.text = "My Sdk/min=1=2" ∧
      parse? sdk.text = some sdk := by
  intro sdk
  have h : parse? " My Sdk / Min = 1=2 " = some sdk := by decide +kernel
  exact ⟨h, by decide +kernel, (parse?_rewritten h).2.2.2⟩

end SdkReference
end ProjectSense
