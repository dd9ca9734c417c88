import ProjectSense.Markup.Entity
import ProjectSense.Proofs.Text.Break
import ProjectSense.Proofs.Text.Number
import ProjectSense.Proofs.Text.Replaced

/-!
# References in markup text

A reference is a predefined name or the number of a character, between `&` and `;`.  A sign in front
of the number makes no difference to the reader, though it makes no reference.

* `Entity.Names`, `Entity.ByNumber`, `Entity.Reference`: what stands for a character.
* `Entity.char?_eq_some_iff`: what is taken for one.
* `Entity.replaced_decode`: every reference is replaced, and nothing else.
* `Entity.decodeEntities_replaced`: signed numbers are the only other forms that are.
-/

namespace ProjectSense.Entity

open Text (Replaced Marked Either)

variable {base n : Nat} {c d : Char} {sign digits entity cs : List Char}

/-! ### What names a character -/

def predefined : List (List Char × Char) :=
  [(['a', 'm', 'p'], '&'), (['l', 't'], '<'), (['g', 't'], '>'), (['q', 'u', 'o', 't'], '"'),
    (['a', 'p', 'o', 's'], '\'')]

/-- the number of the character in decimal or hexadecimal digits, with a sign in front -/
inductive ByNumber (sign : List Char) : List Char → Char → Prop
  | decimal {digits : List Char} {c : Char} (h : IsNumeral 10 digits c.toNat) :
    ByNumber sign ('#' :: (sign ++ digits)) c
  | hexadecimal {digits : List Char} {c : Char} (h : IsNumeral 16 digits c.toNat) :
    ByNumber sign ('#' :: 'x' :: (sign ++ digits)) c

/-- the name of the character or its number -/
def Names (entity : List Char) (c : Char) : Prop := (entity, c) ∈ predefined ∨ ByNumber [] entity c

/-- what names a character, between `&` and `;` -/
def Reference (names : List Char → Char → Prop) (w : List Char) (c : Char) : Prop :=
  ∃ entity, names entity c ∧ w = '&' :: (entity ++ [';'])

theorem ByNumber.mem (h : ByNumber sign entity c) :
    ∀ d ∈ entity, d ∈ '#' :: 'x' :: sign ∨ (hexValue? d).isSome = true := by
  intro d hd
  cases h with
  | decimal h =>
    rcases List.mem_cons.1 hd with rfl | hd
    · exact .inl List.mem_cons_self
    rcases List.mem_append.1 hd with hd | hd
    · exact .inl (List.mem_cons_of_mem _ (List.mem_cons_of_mem _ hd))
    · exact .inr (h.isSome_hexValue? (by decide) d hd)
  | hexadecimal h =>
    rw [← List.cons_append, ← List.cons_append] at hd
    rcases List.mem_append.1 hd with hd | hd
    · exact .inl hd
    · exact .inr (h.isSome_hexValue? (by decide) d hd)

theorem ByNumber.not_mem (h : ByNumber sign entity c) {d : Char} (hd : d ∉ '#' :: 'x' :: sign)
    (hdigit : hexValue? d = none) : d ∉ entity := by
  intro hmem
  rcases h.mem d hmem with hmem | hsome
  · exact hd hmem
  · rw [hdigit] at hsome
    cases hsome

/-- what names a character holds neither a mark nor a sign -/
theorem Names.not_mem (h : Names entity c) : ∀ d ∈ ['&', ';', '+'], d ∉ entity := by
  rcases h with h | h
  · have hall : ∀ p ∈ predefined, '&' ∉ p.1 ∧ ';' ∉ p.1 ∧ '+' ∉ p.1 := by decide
    simpa using hall _ h
  · have hall : '&' ∉ entity ∧ ';' ∉ entity ∧ '+' ∉ entity :=
      ⟨h.not_mem (by decide) rfl, h.not_mem (by decide) rfl, h.not_mem (by decide) rfl⟩
    simpa using hall

/-- a sign tells a signed number from what names a character -/
theorem not_names (h : ByNumber ['+'] entity c) : ¬Names entity d := fun hnames =>
  hnames.not_mem '+' (by decide) (by cases h <;> simp)

/-! ### What is taken for a character -/

theorem scalar?_eq_some_iff : scalar? n = some c ↔ n = c.toNat := by
  rw [scalar?]
  constructor
  · intro h
    split at h
    · next hvalid =>
      rw [← Option.some.inj h, Char.ofNat, dif_pos hvalid]
      rfl
    · cases h
  · rintro rfl
    have hvalid : c.toNat.isValidChar := c.valid
    rw [if_pos hvalid, Char.ofNat_toNat]

/-- the number of a character has no more than 32 bits -/
theorem scalar_number?_iff (hpos : 0 < base) (hbase : base ≤ 16) :
    (number? base Number.maxWord cs >>= scalar?) = some c ↔ IsNumeral base cs c.toNat ∨
      ∃ digits, cs = '+' :: digits ∧ IsNumeral base digits c.toNat := by
  have hle : c.toNat ≤ Number.maxWord := Nat.le_sub_one_of_lt c.val.toNat_lt_size
  rw [Option.bind_eq_bind, Option.bind_eq_some_iff]
  constructor
  · rintro ⟨n, hn, hc⟩
    rw [scalar?_eq_some_iff.1 hc] at hn
    exact ((number?_eq_some_iff hpos hbase).1 hn).2
  · intro h
    exact ⟨c.toNat, (number?_eq_some_iff hpos hbase).2 ⟨hle, h⟩, scalar?_eq_some_iff.2 rfl⟩

theorem char?_decimal (h : ∀ ds, digits ≠ 'x' :: ds) :
    char? ('#' :: digits) = (number? 10 Number.maxWord digits >>= scalar?) := by
  rw [char?]
  all_goals simp
  exact h

theorem char?_byNumber (hsign : sign = [] ∨ sign = ['+']) (h : ByNumber sign entity c) :
    char? entity = some c := by
  have hnumber : ∀ {base digits}, IsNumeral base digits c.toNat →
      IsNumeral base (sign ++ digits) c.toNat ∨
        ∃ ds, sign ++ digits = '+' :: ds ∧ IsNumeral base ds c.toNat := by
    intro base digits hdigits
    rcases hsign with rfl | rfl
    · exact .inl hdigits
    · exact .inr ⟨digits, rfl, hdigits⟩
  cases h with
  | @decimal digits _ h =>
    -- the letter that announces hexadecimal digits is no decimal one
    have hx : ∀ ds, sign ++ digits ≠ 'x' :: ds := by
      rintro ds heq
      rcases hsign with rfl | rfl
      · obtain rfl : digits = 'x' :: ds := heq
        obtain ⟨d, hd⟩ := h.exists_digit 'x' List.mem_cons_self
        exact absurd (hd.isSome_hexValue? (by decide)) (by decide)
      · cases heq
    rw [char?_decimal hx, scalar_number?_iff (by decide) (by decide)]
    exact hnumber h
  | hexadecimal h => exact (scalar_number?_iff (by decide) (by decide)).2 (hnumber h)

/-- what names a character is taken for it, and so is a number with a sign -/
theorem char?_eq_some_iff :
    char? entity = some c ↔ Names entity c ∨ ByNumber ['+'] entity c := by
  constructor
  · fun_cases char? entity with
    | case6 digits =>
      intro h
      rcases (scalar_number?_iff (by decide) (by decide)).1 h with hn | ⟨digits, rfl, hn⟩
      · exact .inl (.inr (.hexadecimal hn))
      · exact .inr (.hexadecimal hn)
    | case7 digits =>
      intro h
      rcases (scalar_number?_iff (by decide) (by decide)).1 h with hn | ⟨digits, rfl, hn⟩
      · exact .inl (.inr (.decimal hn))
      · exact .inr (.decimal hn)
    | case8 => exact fun h => nomatch h
    | _ =>
      rintro ⟨⟩
      exact .inl (.inl (by decide))
  · rintro ((h | h) | h)
    · have hall : ∀ p ∈ predefined, char? p.1 = some p.2 := by decide
      exact hall _ h
    · exact char?_byNumber (.inl rfl) h
    · exact char?_byNumber (.inr rfl) h

/-! ### What is read -/

theorem not_mem_of_char? (h : char? entity = some c) : '&' ∉ entity ∧ ';' ∉ entity := by
  rcases char?_eq_some_iff.1 h with h | h
  · exact ⟨h.not_mem _ (by decide), h.not_mem _ (by decide)⟩
  · exact ⟨h.not_mem (by decide) rfl, h.not_mem (by decide) rfl⟩

theorem either_reference_iff {w : List Char} :
    Either (Reference Names) (Reference (ByNumber ['+'])) w c ↔
      ∃ entity, char? entity = some c ∧ w = '&' :: (entity ++ [';']) := by
  simp only [Either, Reference, char?_eq_some_iff, or_and_right, exists_or]

/-- a text begins with what is taken for a reference just if it is one up to its first `;` -/
theorem breakOn_of_prefix {w : List Char}
    (hw : Either (Reference Names) (Reference (ByNumber ['+'])) w c) (h : w <+: '&' :: cs) :
    ∃ entity rest, Text.breakOn [';'] cs = (entity, some rest) ∧ char? entity = some c ∧
      w = '&' :: (entity ++ [';']) := by
  obtain ⟨entity, hchar, rfl⟩ := either_reference_iff.1 hw
  obtain ⟨rest, rfl⟩ := (List.cons_prefix_cons.1 h).2
  refine ⟨entity, rest, ?_, hchar, rfl⟩
  rw [List.append_assoc]
  exact Text.breakOn_char (not_mem_of_char? hchar).2 rest

theorem marked_reference :
    Marked '&' (Either (Reference Names) (Reference (ByNumber ['+']))) where
  shape hw := by
    obtain ⟨entity, hchar, rfl⟩ := either_reference_iff.1 hw
    exact ⟨_, rfl, by simp [(not_mem_of_char? hchar).1]⟩
  unique hv hw hpre := by
    obtain ⟨entity, hchar, rfl⟩ := either_reference_iff.1 hw
    obtain ⟨entity', rest, hbreak, hchar', rfl⟩ := breakOn_of_prefix hv hpre
    rw [Text.breakOn_char (not_mem_of_char? hchar).2] at hbreak
    obtain rfl := (Prod.mk.inj hbreak).1
    exact ⟨rfl, Option.some.inj (hchar'.symm.trans hchar)⟩

/-- every reference is replaced, and nothing else but signed numbers is -/
theorem replaced_decode (cs : List Char) :
    Replaced (Either (Reference Names) (Reference (ByNumber ['+']))) cs (decode cs) := by
  fun_induction decode cs with
  | case1 => exact .nil
  | case2 cs entity rest h c hc _ ih =>
    have hcut : '&' :: cs = '&' :: (entity ++ [';']) ++ rest := by
      rw [Text.breakOn_eq h]
      rfl
    rw [hcut]
    exact .replace (either_reference_iff.2 ⟨entity, hc, rfl⟩) ih
  | case3 cs entity rest h hc ih =>
    refine .copy (fun w c hw hpre => ?_) ih
    obtain ⟨entity', rest', hbreak, hchar, -⟩ := breakOn_of_prefix hw hpre
    rw [h] at hbreak
    obtain rfl := (Prod.mk.inj hbreak).1
    rw [hc] at hchar
    cases hchar
  | case4 cs before h =>
    refine .self fun w c hw hin => ?_
    obtain ⟨entity, -, rfl⟩ := either_reference_iff.1 hw
    have hmem : ';' ∈ '&' :: cs := hin.subset (by simp)
    exact Text.not_mem_of_breakOn_none h (List.mem_of_ne_of_mem (by decide) hmem)
  | case5 c cs hne ih => exact .copy (marked_reference.not_prefix (Ne.symm hne) cs) ih

/-- a signed number is longer than the character that takes its place -/
theorem not_replaced_of_signed {w : List Char} (hw : Reference (ByNumber ['+']) w c)
    (hin : w <:+: cs) : ¬Replaced (Reference Names) cs (decode cs) := by
  intro h
  have hcount := (replaced_decode cs).countP_le (p := fun _ => true) marked_reference ?_ ?_ h
  · exact absurd (hcount.2 w c hw hin) (lt_irrefl _)
  · rintro w c ⟨entity, hsigned, rfl⟩ ⟨entity', hnames, heq⟩
    obtain rfl := List.append_cancel_right (List.cons.inj heq).2
    exact not_names hsigned hnames
  · rintro w c ⟨entity, -, rfl⟩
    simp

/-- Every reference is replaced by its character, and what is put in is not read again.  Nothing
else is replaced but numbers with a sign, so that a text is read as its references say just where
none of those stands in it. -/
theorem decodeEntities_replaced (raw : String) :
    (∀ out, Replaced (Either (Reference Names) (Reference (ByNumber ['+']))) raw.toList out ↔
      out = (decodeEntities raw).toList) ∧
    ((∀ out, Replaced (Reference Names) raw.toList out ↔ out = (decodeEntities raw).toList) ↔
      ∀ w c, Reference (ByNumber ['+']) w c → ¬w <:+: raw.toList) := by
  have hread := replaced_decode raw.toList
  rw [decodeEntities, String.toList_ofList]
  refine ⟨fun out => hread.iff_eq marked_reference, fun h w c hw hin => ?_, fun h out => ?_⟩
  · exact not_replaced_of_signed hw hin ((h _).2 rfl)
  · exact (hread.without h).iff_eq marked_reference.left

/-- a number with a sign is no reference, and is replaced -/
theorem decodeEntities_signed :
    Replaced (Reference Names) "&#+65;".toList "&#+65;".toList ∧ decodeEntities "&#+65;" = "A" := by
  refine ⟨.self ?_, by decide +kernel⟩
  rintro w c ⟨entity, hnames, rfl⟩ hin
  have hchar := char?_eq_some_iff.2 (.inl hnames)
  rcases List.infix_cons_iff.1 hin with hpre | hin
  · obtain ⟨entity', rest, hbreak, -, heq⟩ :=
      breakOn_of_prefix (either_reference_iff.2 ⟨entity, hchar, rfl⟩) hpre
    obtain rfl := List.append_cancel_right (List.cons.inj heq).2
    obtain rfl := (Prod.mk.inj hbreak).1
    exact hnames.not_mem '+' (by decide) (by decide)
  · exact absurd (hin.subset List.mem_cons_self) (by decide)

end ProjectSense.Entity
