import ProjectSense.Completion.Paths
import ProjectSense.Proofs.Checked.Slice
import ProjectSense.Proofs.Path.Normal
import ProjectSense.Proofs.Text.Case
import ProjectSense.Schema.Infer

/-!
# Words cut out of texts

Entities, escapes, conditions, templates, drives, short names and the words in names once more, cut
out of their texts at the bytes where a search found something.  They are texts of any length, and
no cut fails.

* `Checked.found_of_breakOn`, `Checked.rfind_some`: where a search cuts.
* `Checked.entities?_eq`, `Checked.unescape?_eq`: texts decoded.
* `Checked.comparisons?_eq`: what a condition compares.
* `Checked.template?_eq`, `Checked.normalize?_eq`: paths.
* `Checked.nameKind?_eq`, `Checked.framework?_eq`: what names tell of.
-/

namespace ProjectSense.Checked

open Text (width)

/-! ### Searches -/

/-- the byte at which the pattern occurs first -/
def find (pattern cs : List Char) : Option Nat :=
  match Text.breakOn pattern cs with
  | (before, some _) => some (width before)
  | (_, none) => none

/-- the byte of the last character that satisfies `p` -/
def rfind (p : Char → Bool) : List Char → Option Nat
  | [] => none
  | c :: cs =>
    match rfind p cs with
    | some n => some (c.utf8Size + n)
    | none => if p c then some 0 else none

variable {pattern cs before after : List Char}

theorem upto?_of_eq {n : Nat} {front back : List Char} (h : cs = front ++ back)
    (hn : n = width front) : upto? n cs = some front := by
  subst h hn
  exact upto?_append front back

theorem from?_of_eq {n : Nat} {front back : List Char} (h : cs = front ++ back)
    (hn : n = width front) : from? n cs = some back := by
  subst h hn
  exact from?_append front back

/-- a text can be cut before and after what was found -/
theorem found_of_breakOn (h : Text.breakOn pattern cs = (before, some after)) :
    find pattern cs = some (width before) ∧ upto? (width before) cs = some before ∧
      from? (width before) cs = some (pattern ++ after) ∧
      from? (width before + width pattern) cs = some after := by
  have heq := Text.breakOn_eq h
  refine ⟨?_, upto?_of_eq (heq.trans (List.append_assoc ..)) rfl,
    from?_of_eq (heq.trans (List.append_assoc ..)) rfl, from?_of_eq heq ?_⟩
  · rw [find, h]
  · rw [Text.width_append]

theorem find_of_none (h : Text.breakOn pattern cs = (before, none)) : find pattern cs = none := by
  rw [find, h]

theorem rfind_none {p : Char → Bool} (h : rfind p cs = none) : ∀ d ∈ cs, p d = false := by
  induction cs with
  | nil => simp
  | cons c cs ih =>
    rw [rfind] at h
    split at h
    · cases h
    · next hnone =>
      split at h
      · cases h
      · next hc => exact List.forall_mem_cons.2 ⟨Bool.eq_false_iff.2 hc, ih hnone⟩

/-- what stands around the last character that satisfies `p` -/
theorem rfind_some {p : Char → Bool} {n : Nat} (h : rfind p cs = some n) :
    ∃ front c back, cs = front ++ c :: back ∧ p c = true ∧ n = width front ∧
      ∀ d ∈ back, p d = false := by
  induction cs generalizing n with
  | nil => cases h
  | cons c cs ih =>
    rw [rfind] at h
    split at h
    · next m hm =>
      obtain ⟨front, d, back, rfl, hd, rfl, hback⟩ := ih hm
      exact ⟨c :: front, d, back, rfl, hd, (Option.some.inj h).symm, hback⟩
    · next hnone =>
      split at h
      · next hc => exact ⟨[], c, cs, rfl, hc, (Option.some.inj h).symm, rfind_none hnone⟩
      · cases h

/-! ### Entities -/

/-- the text with its entities replaced -/
def entities? (cs : List Char) : Option (List Char) :=
  match find ['&'] cs with
  | none => some cs
  | some amp => do
    let before ← upto? amp cs
    let rest ← from? amp cs
    match find [';'] rest with
    | none => some (before ++ rest)
    | some semi => do
      let entity ← slice? 1 semi rest
      let decoded := Entity.char? entity
      let more ← from? (if decoded.isSome then semi + 1 else 1) rest
      if _h : more.length < cs.length then
        let later ← entities? more
        some (before ++ decoded.getD '&' :: later)
      else none
termination_by cs.length

theorem decode_append (h : '&' ∉ before) (cs : List Char) :
    Entity.decode (before ++ cs) = before ++ Entity.decode cs := by
  induction before with
  | nil => rfl
  | cons c before ih =>
    have hc : c ≠ '&' := fun heq => h (heq ▸ List.mem_cons_self)
    have hmore : '&' ∉ before := fun hmem => h (List.mem_cons_of_mem c hmem)
    rw [List.cons_append, Entity.decode, ih hmore, List.cons_append]
    exact hc

theorem decode_entity {entity rest : List Char}
    (h : Text.breakOn [';'] cs = (entity, some rest)) : Entity.decode ('&' :: cs) =
      (Entity.char? entity).getD '&' ::
        Entity.decode (if (Entity.char? entity).isSome then rest else cs) := by
  rw [Entity.decode]
  split
  · next heq =>
    rw [h] at heq
    obtain ⟨rfl, hrest⟩ := Prod.mk.inj heq
    obtain rfl := Option.some.inj hrest
    cases Entity.char? entity <;> rfl
  · next heq =>
    rw [h] at heq
    cases (Prod.mk.inj heq).2

theorem decode_of_none (h : Text.breakOn [';'] cs = (before, none)) :
    Entity.decode ('&' :: cs) = '&' :: cs := by
  rw [Entity.decode]
  split
  · next heq =>
    rw [h] at heq
    cases (Prod.mk.inj heq).2
  · rfl

theorem breakOn_cons {c d : Char} (hne : c ≠ d) (cs : List Char) :
    Text.breakOn [d] (c :: cs) = (c :: (Text.breakOn [d] cs).1, (Text.breakOn [d] cs).2) := by
  rw [Text.breakOn, if_neg]
  simpa using fun heq => hne heq.symm

theorem entities?_eq (cs : List Char) : entities? cs = some (Entity.decode cs) := by
  rw [entities?]
  rcases hamp : Text.breakOn ['&'] cs with ⟨before, _ | after⟩
  · have hdecode := decode_append (Text.not_mem_of_breakOn_none hamp) []
    rw [Entity.decode, List.append_nil] at hdecode
    rw [find_of_none hamp, hdecode]
  · obtain ⟨hfind, hupto, hfrom, -⟩ := found_of_breakOn hamp
    have hcut : cs = before ++ '&' :: after := (Text.breakOn_eq hamp).trans (List.append_assoc ..)
    have hdecode : Entity.decode cs = before ++ Entity.decode ('&' :: after) :=
      (congrArg Entity.decode hcut).trans (decode_append (Text.not_mem_breakOn hamp) _)
    have hlength := congrArg List.length hcut
    have hsemi := breakOn_cons (c := '&') (d := ';') (by decide) after
    rcases hafter : Text.breakOn [';'] after with ⟨entity, _ | rest⟩
    · rw [hafter] at hsemi
      simp only [hfind, hupto, hfrom, Option.bind_eq_bind, Option.bind_some, List.cons_append,
        List.nil_append, find_of_none hsemi, hdecode, decode_of_none hafter]
    · rw [hafter] at hsemi
      obtain ⟨hfindSemi, -, -, hrest⟩ := found_of_breakOn hsemi
      have hentity : slice? 1 (width ('&' :: entity)) ('&' :: after) = some entity := by
        rw [Text.breakOn_eq hafter, List.append_assoc]
        exact slice?_append ['&'] entity (';' :: rest)
      have hlt : rest.length < after.length :=
        Text.length_breakOn_lt (List.cons_ne_nil _ _) hafter
      simp only [hfind, hupto, hfrom, Option.bind_eq_bind, Option.bind_some, List.cons_append,
        List.nil_append, hfindSemi, hentity, hdecode, decode_entity hafter]
      cases Entity.char? entity with
      | none =>
        have hone : from? 1 ('&' :: after) = some after := from?_append ['&'] after
        have hmore : after.length < cs.length := by simp [hlength]; omega
        simp only [Option.isSome_none, Bool.false_eq_true, if_false, hone, Option.bind_some,
          dif_pos hmore, entities?_eq after, Option.getD_none]
      | some c =>
        have hmore : rest.length < cs.length := by simp [hlength]; omega
        have hwidth : width [';'] = 1 := rfl
        rw [hwidth] at hrest
        simp only [Option.isSome_some, if_true, hrest, Option.bind_some, dif_pos hmore,
          entities?_eq rest, Option.getD_some]
termination_by cs.length

/-! ### Conditions -/

/-- the quoted text at the end -/
def lastQuoted? (cs : List Char) : Option (Option (List Char)) :=
  match (Text.trimEnd cs).reverse with
  | '\'' :: before =>
    match rfind (· = '\'') before.reverse with
    | none => some none
    | some start => (from? (start + 1) before.reverse).map some
  | _ => some none

/-- the quoted text in front -/
def firstQuoted? (cs : List Char) : Option (Option (List Char)) :=
  match Text.trimStart cs with
  | '\'' :: rest =>
    match find ['\''] rest with
    | none => some none
    | some stop => (upto? stop rest).map some
  | _ => some none

/-- the pairs of property and value that a condition compares -/
def comparisons? (cs : List Char) : Option (List (String × String)) :=
  match find ['=', '='] cs with
  | none => some []
  | some eq => do
    let left ← upto? eq cs
    let rest ← from? (eq + 2) cs
    let names ← lastQuoted? left
    let values ← firstQuoted? rest
    if _h : rest.length < cs.length then
      let more ← comparisons? rest
      some ((names.bind fun l => values.map (Condition.pairsOf l)).getD [] ++ more)
    else none
termination_by cs.length

theorem lastQuoted?_eq (cs : List Char) : lastQuoted? cs = some (Condition.lastQuoted? cs) := by
  by_cases hquote : ∃ before, (Text.trimEnd cs).reverse = '\'' :: before
  · obtain ⟨before, hquote⟩ := hquote
    rw [lastQuoted?, Condition.lastQuoted?, hquote]
    simp only
    cases h : rfind (· = '\'') before.reverse with
    | none =>
      have hnone := rfind_none h
      have hcontains : ¬before.contains '\'' = true := by
        rw [List.contains_iff_mem]
        exact fun hmem => by simpa using hnone _ (List.mem_reverse.2 hmem)
      rw [if_neg hcontains]
    | some start =>
      obtain ⟨front, c, back, heq, hc, rfl, hback⟩ := rfind_some h
      obtain rfl : c = '\'' := by simpa using hc
      have hbefore : before = back.reverse ++ '\'' :: front.reverse := by
        rw [← List.reverse_reverse before, heq]
        simp
      have hcontains : before.contains '\'' = true := by simp [hbefore]
      have htake : before.takeWhile (· ≠ '\'') = back.reverse := by
        rw [hbefore, List.takeWhile_append_of_pos fun d hd => by
          simpa using hback d (List.mem_reverse.1 hd)]
        simp
      have hfrom : from? (width front + 1) before.reverse = some back :=
        from?_of_eq (heq.trans (List.append_cons ..)) (by rw [Text.width_append]; rfl)
      rw [if_pos hcontains, htake, List.reverse_reverse]
      simp only [hfrom, Option.map_some]
  · have hnone : lastQuoted? cs = some none := by
      unfold lastQuoted?
      split
      · next heq => exact absurd ⟨_, heq⟩ hquote
      · rfl
    have hnone' : Condition.lastQuoted? cs = none := by
      unfold Condition.lastQuoted?
      split
      · next heq => exact absurd ⟨_, heq⟩ hquote
      · rfl
    rw [hnone, hnone']

theorem firstQuoted?_eq (cs : List Char) :
    firstQuoted? cs = some (Condition.firstQuoted? cs) := by
  by_cases hquote : ∃ rest, Text.trimStart cs = '\'' :: rest
  · obtain ⟨rest, hquote⟩ := hquote
    rw [firstQuoted?, Condition.firstQuoted?, hquote]
    simp only
    rcases h : Text.breakOn ['\''] rest with ⟨before, _ | after⟩
    · have hcontains : ¬rest.contains '\'' = true := by
        rw [List.contains_iff_mem]
        exact Text.not_mem_of_breakOn_none h
      rw [find_of_none h, if_neg hcontains]
    · obtain ⟨hfind, hupto, -, -⟩ := found_of_breakOn h
      have hcut : rest = before ++ '\'' :: after :=
        (Text.breakOn_eq h).trans (List.append_assoc ..)
      have hcontains : rest.contains '\'' = true := by simp [hcut]
      have htake : rest.takeWhile (· ≠ '\'') = before := by
        rw [hcut, List.takeWhile_append_of_pos fun d hd => by
          simpa using fun heq : d = '\'' => Text.not_mem_breakOn h (heq ▸ hd)]
        simp
      rw [if_pos hcontains, htake]
      simp only [hfind, hupto, Option.map_some]
  · have hnone : firstQuoted? cs = some none := by
      unfold firstQuoted?
      split
      · next heq => exact absurd ⟨_, heq⟩ hquote
      · rfl
    have hnone' : Condition.firstQuoted? cs = none := by
      unfold Condition.firstQuoted?
      split
      · next heq => exact absurd ⟨_, heq⟩ hquote
      · rfl
    rw [hnone, hnone']

theorem comparisons?_eq (cs : List Char) :
    comparisons? cs = some (Condition.comparisons cs) := by
  fun_induction Condition.comparisons cs with
  | case1 cs left rest h hlt ih =>
    obtain ⟨hfind, hupto, -, hfrom⟩ := found_of_breakOn h
    have hwidth : width ['=', '='] = 2 := rfl
    rw [hwidth] at hfrom
    rw [comparisons?]
    simp only [hfind, hupto, hfrom, lastQuoted?_eq, firstQuoted?_eq, dif_pos hlt, ih,
      Option.bind_eq_bind, Option.bind_some]
    cases Condition.lastQuoted? left with
    | none => rfl
    | some l => cases Condition.firstQuoted? rest <;> rfl
  | case2 cs left h =>
    rw [comparisons?, find_of_none h]

/-! ### Templates and paths -/

/-- the literal runs and references of a template -/
def template? (cs : List Char) : Option (List TemplatePart) :=
  match find ['$', '('] cs with
  | none => some (TemplatePart.literals cs)
  | some start => do
    let after ← from? (start + 2) cs
    match find [')'] after with
    | none => some (TemplatePart.literals cs)
    | some stop => do
      let before ← upto? start cs
      let name ← upto? stop after
      let rest ← from? (stop + 1) after
      if _h : rest.length < cs.length then
        let more ← template? rest
        some (TemplatePart.literals before ++
          .property (String.ofList (Text.trim name)) :: more)
      else none
termination_by cs.length

/-- the path begins with a letter and `:`, as its bytes tell -/
def hasDrive (path : List Char) : Bool :=
  match Text.Utf8.encode path with
  | letter :: colon :: _ => (Char.ofNat letter.toNat).isAlpha && colon == 58
  | _ => false

/-- the drive in front, and the rest -/
def splitDrive? (path : List Char) : Option (List Char × List Char) :=
  if hasDrive path then cut? 2 path else some ([], path)

/-- the normal form of a path -/
def normalize? (path : List Char) : Option (List Char) := do
  let parts ← splitDrive? path
  let out := parts.1 ++ Path.normalizeRest parts.2
  some (if out = [] then ['.'] else out)

/-- the place that a path names from a base directory -/
def place? (path base : List Char) : Option (Option (List Char)) :=
  if path.any Path.isWild then some none
  else if Path.startsAtRoot path || hasDrive path || base.isEmpty then (normalize? path).map some
  else (normalize? (base ++ '/' :: path)).map some

/-- the text without its last `n` characters -/
def dropLast? (n : Nat) (cs : List Char) : Option (List Char) :=
  let keep := cs.length - n
  if keep < cs.length then upto? (width (cs.take keep)) cs else some cs

theorem template?_eq (cs : List Char) : template? cs = some (TemplatePart.split cs) := by
  fun_induction TemplatePart.split cs with
  | case1 cs before after h name rest g hlt hlt' ih =>
    obtain ⟨hfind, hupto, -, hfrom⟩ := found_of_breakOn h
    obtain ⟨hfindName, huptoName, -, hfromName⟩ := found_of_breakOn g
    have hwidth : width ['$', '('] = 2 := rfl
    have hwidthName : width [')'] = 1 := rfl
    rw [hwidth] at hfrom
    rw [hwidthName] at hfromName
    rw [template?]
    simp only [hfind, hupto, hfrom, hfindName, huptoName, hfromName,
      dif_pos (Nat.lt_trans hlt' hlt), ih, Option.bind_eq_bind, Option.bind_some]
  | case2 cs before after h name g =>
    obtain ⟨hfind, -, -, hfrom⟩ := found_of_breakOn h
    have hwidth : width ['$', '('] = 2 := rfl
    rw [hwidth] at hfrom
    rw [template?]
    simp only [hfind, hfrom, find_of_none g, Option.bind_eq_bind, Option.bind_some]
  | case3 cs before h =>
    rw [template?, find_of_none h]

theorem isAlpha_of_le {c : Char} (h : 0x80 ≤ c.toNat) : c.isAlpha = false := by
  have hupper : c.isUpper = false := by
    refine Bool.eq_false_iff.2 fun hc => ?_
    have hle : c.val.toNat ≤ 90 := UInt32.le_iff_toNat_le.1 (of_decide_eq_true hc).2
    exact absurd (Nat.le_trans h hle) (by decide)
  have hlower : c.isLower = false := by
    refine Bool.eq_false_iff.2 fun hc => ?_
    have hle : c.val.toNat ≤ 122 :=
      UInt32.le_iff_toNat_le.1 (of_decide_eq_true (Bool.and_eq_true_iff.1 hc).2)
    exact absurd (Nat.le_trans h hle) (by decide)
  have halpha : c.isAlpha = (c.isUpper || c.isLower) := rfl
  rw [halpha, hupper, hlower]
  rfl

/-- a byte that is not ASCII is no letter -/
theorem isAlpha_of_byte {b : UInt8} (h : 0x80 ≤ b.toNat) :
    (Char.ofNat b.toNat).isAlpha = false := by
  have hvalid : b.toNat.isValidChar := Or.inl (Nat.lt_trans b.toNat_lt (by decide))
  refine isAlpha_of_le ?_
  rw [Char.ofNat, dif_pos hvalid]
  exact h

theorem utf8Size_of_isAlpha {c : Char} (h : c.isAlpha = true) : c.utf8Size = 1 := by
  have hlt : c.toNat < 0x80 := by
    refine Nat.lt_of_not_le fun hle => ?_
    rw [isAlpha_of_le hle] at h
    cases h
  rw [Char.utf8Size_eq_one_iff, UInt32.le_iff_toNat_le]
  exact Nat.le_of_lt_succ hlt

/-- a character is written as itself, or as several bytes none of which is ASCII -/
theorem encodeChar_cases (c : Char) :
    (c.toNat < 0x80 ∧ Text.Utf8.encodeChar c = [.ofNat c.toNat]) ∨
      0x80 ≤ c.toNat ∧ ∃ lead tail more, Text.Utf8.encodeChar c = lead :: tail :: more ∧
        0x80 ≤ lead.toNat := by
  have hvalid : c.toNat < 0xD800 ∨ (0xDFFF < c.toNat ∧ c.toNat < 0x110000) := c.valid
  unfold Text.Utf8.encodeChar
  generalize c.toNat = n at *
  simp only
  split
  · next h => exact Or.inl ⟨h, rfl⟩
  · refine Or.inr ⟨by omega, ?_⟩
    split
    · exact ⟨_, _, _, rfl, by rw [Text.Utf8.toNat_byte (by omega)]; omega⟩
    split
    · exact ⟨_, _, _, rfl, by rw [Text.Utf8.toNat_byte (by omega)]; omega⟩
    · exact ⟨_, _, _, rfl, by rw [Text.Utf8.toNat_byte (by omega)]; omega⟩

/-- the bytes tell of a drive just when the characters do -/
theorem hasDrive_cons (c d : Char) (rest : List Char) :
    hasDrive (c :: d :: rest) = (c.isAlpha && d == ':') := by
  rw [hasDrive, Text.Utf8.encode_cons, Text.Utf8.encode_cons]
  rcases encodeChar_cases c with ⟨hc, hbytes⟩ | ⟨hc, lead, tail, more, hbytes, hlead⟩
  · have hfirst : Char.ofNat (UInt8.ofNat c.toNat).toNat = c := by
      rw [Text.Utf8.toNat_byte (by omega), Char.ofNat_toNat]
    rw [hbytes]
    rcases encodeChar_cases d with ⟨hd, hbytes'⟩ | ⟨hd, lead, tail, more, hbytes', hlead⟩
    · have hcolon : (UInt8.ofNat d.toNat == 58) = (d == ':') := by
        rw [Bool.eq_iff_iff, beq_iff_eq, beq_iff_eq, ← Char.toNat_inj, ← UInt8.toNat_inj,
          Text.Utf8.toNat_byte (by omega)]
        rfl
      rw [hbytes']
      simp only [List.cons_append, List.nil_append, hfirst, hcolon]
    · have hcolon : (lead == 58) = (d == ':') := by
        have hbyte : lead ≠ 58 := by rintro rfl; exact absurd hlead (by decide)
        have hchar : d ≠ ':' := by rintro rfl; exact absurd hd (by decide)
        rw [beq_eq_false_iff_ne.2 hbyte, beq_eq_false_iff_ne.2 hchar]
      rw [hbytes']
      simp only [List.cons_append, List.nil_append, hfirst, hcolon]
  · rw [hbytes]
    simp only [List.cons_append, isAlpha_of_byte hlead, isAlpha_of_le hc, Bool.false_and]

theorem hasDrive_eq (path : List Char) : hasDrive path = !(Path.splitDrive path).1.isEmpty := by
  match path with
  | [] => rfl
  | [c] =>
    have hnone : Path.splitDrive [c] = ([], [c]) := rfl
    rw [hasDrive, Text.Utf8.encode_cons, Text.Utf8.encode_nil, List.append_nil, hnone]
    rcases encodeChar_cases c with ⟨-, hbytes⟩ | ⟨-, lead, tail, more, hbytes, hlead⟩
    · rw [hbytes]
      rfl
    · rw [hbytes]
      simp only [isAlpha_of_byte hlead, Bool.false_and, List.isEmpty_nil, Bool.not_true]
  | c :: d :: rest =>
    rw [hasDrive_cons]
    unfold Path.splitDrive
    split
    · next heq =>
      obtain ⟨rfl, htail⟩ := List.cons.inj heq
      obtain ⟨rfl, -⟩ := List.cons.inj htail
      cases c.isAlpha <;> rfl
    · next hnot =>
      have hd : d ≠ ':' := by rintro rfl; exact hnot _ _ rfl
      rw [beq_eq_false_iff_ne.2 hd, Bool.and_false]
      rfl

theorem splitDrive?_eq (path : List Char) : splitDrive? path = some (Path.splitDrive path) := by
  rw [splitDrive?, hasDrive_eq]
  fun_cases Path.splitDrive path with
  | case1 c rest hc =>
    have hcut : cut? 2 (c :: ':' :: rest) = some ([c, ':'], rest) := by
      refine cut?_eq_some_iff.2 ⟨rfl, ?_⟩
      rw [Text.width_cons, utf8Size_of_isAlpha hc]
      rfl
    exact hcut
  | case2 c rest hc => rfl
  | case3 path hnot => rfl

theorem normalize?_eq (path : List Char) : normalize? path = some (Path.normalize path) := by
  rw [normalize?, splitDrive?_eq]
  rfl

theorem place?_eq (path base : List Char) : place? path base = some (Path.resolve? path base) := by
  have hrooted : Path.isRooted path = (Path.startsAtRoot path || hasDrive path) := by
    rw [hasDrive_eq]
    rfl
  rw [place?, Path.resolve?, hrooted, normalize?_eq, normalize?_eq]
  cases path.any Path.isWild with
  | true => rfl
  | false => cases Path.startsAtRoot path || hasDrive path || base.isEmpty <;> rfl

theorem dropLast?_eq (n : Nat) (cs : List Char) : dropLast? n cs = some (dropLastChars n cs) := by
  simp only [dropLast?, dropLastChars]
  split
  · exact upto?_of_eq (List.take_append_drop _ cs).symm rfl
  · next h => rw [List.take_of_length_le (Nat.le_of_not_lt h)]

/-! ### Escapes -/

/-- the bytes from the place `i` on, with every well-formed escape replaced -/
def unescapeFrom? (bytes : List UInt8) (i : Nat) : Option (List UInt8) :=
  if _h : i < bytes.length then do
    let b ← bytes[i]?
    let decoded ←
      if b = 37 ∧ i + 2 < bytes.length then do
        let high ← bytes[i + 1]?
        let low ← bytes[i + 2]?
        some (Escape.byte? high low)
      else some none
    match decoded with
    | some d => (unescapeFrom? bytes (i + 3)).map (d :: ·)
    | none => (unescapeFrom? bytes (i + 1)).map (b :: ·)
  else some []
termination_by bytes.length - i

/-- the text that an escaped text denotes -/
def unescape? (raw : String) : Option String :=
  (unescapeFrom? (Text.Utf8.encode raw.toList) 0).map fun bytes =>
    String.ofList (Text.Utf8.decode bytes)

/-- a byte that begins no escape -/
theorem decodeBytes_plain {b : UInt8} {bytes : List UInt8} (h : ¬(b = 37 ∧ 2 ≤ bytes.length)) :
    Escape.decodeBytes (b :: bytes) = b :: Escape.decodeBytes bytes := by
  rw [Escape.decodeBytes]
  rintro high low rest rfl rfl
  exact h ⟨rfl, by simp⟩

theorem unescapeFrom?_eq (bytes : List UInt8) (i : Nat) :
    unescapeFrom? bytes i = some (Escape.decodeBytes (bytes.drop i)) := by
  rw [unescapeFrom?]
  split
  · next hi =>
    have hdrop : bytes.drop i = bytes[i] :: bytes.drop (i + 1) := List.drop_eq_getElem_cons hi
    have hnext := unescapeFrom?_eq bytes (i + 1)
    simp only [List.getElem?_eq_getElem hi, Option.bind_eq_bind, Option.bind_some]
    split
    · next h =>
      obtain ⟨hpercent, hlast⟩ := h
      have hdrop' : bytes.drop (i + 1) = bytes[i + 1] :: bytes[i + 2] :: bytes.drop (i + 3) := by
        rw [List.drop_eq_getElem_cons (show i + 1 < bytes.length by omega),
          List.drop_eq_getElem_cons hlast]
      have hlater := unescapeFrom?_eq bytes (i + 3)
      simp only [List.getElem?_eq_getElem hlast, Option.bind_some,
        List.getElem?_eq_getElem (show i + 1 < bytes.length by omega)]
      rw [hdrop, hpercent, hdrop', Escape.decodeBytes]
      cases Escape.byte? bytes[i + 1] bytes[i + 2] with
      | some d =>
        rw [hlater]
        rfl
      | none =>
        rw [hnext, hdrop']
        rfl
    · next h =>
      have hplain : ¬(bytes[i] = 37 ∧ 2 ≤ (bytes.drop (i + 1)).length) := by
        rintro ⟨hpercent, hlength⟩
        rw [List.length_drop] at hlength
        exact h ⟨hpercent, by omega⟩
      simp only [hnext, Option.map_some]
      rw [hdrop, decodeBytes_plain hplain]
  · next hi =>
    rw [List.drop_of_length_le (Nat.le_of_not_lt hi), Escape.decodeBytes]
termination_by bytes.length - i

theorem unescape?_eq (raw : String) : unescape? raw = some (unescape raw) := by
  rw [unescape?, unescapeFrom?_eq]
  rfl

/-! ### Names -/

/-- the name begins with the word, whatever its case, and goes on with a capital -/
def beginsWithWord? (name : List Char) (word : String) : Option Bool :=
  let length := width word.toList
  if length < width name ∧ (cut? length name).isSome then do
    let front ← upto? length name
    let rest ← from? length name
    some (front.map Char.toLower == foldCase word && rest.head?.any Text.isUppercase)
  else some false

/-- the name ends so, whatever the case -/
def endsWith? (name : List Char) (ending : String) : Option Bool :=
  let length := width ending.toList
  if length ≤ width name then do
    let start ← sub? (width name) length
    if (cut? start name).isSome then
      (from? start name).map fun back => back.map Char.toLower == foldCase ending
    else some false
  else some false

/-- the kind that a name tells of -/
def nameKind? (name : List Char) : Option (Option ValueKind) := do
  if ← NameHint.booleanWords.anyM (beginsWithWord? name) then some (some BaseKind.bool.one)
  else do
    let row ← NameHint.endings.findM? fun row => row.1.anyM (endsWith? name)
    some (row.map (·.2))

/-- the kind of the value, guessed where none is declared: only the names of properties and of
metadata tell -/
def inferredKind? (d : Descriptor) : Option ValueKind :=
  match d with
  | .property decl =>
    if !decl.kind.isOpen then some decl.kind
    else if decl.kind.base = .unknownItem then some (Descriptor.filesFor decl.kind)
    else (nameKind? decl.name.spelling.toList).map fun kind =>
      kind.getD (NameHint.ofCommon decl.name.spelling)
  | .metadata decl =>
    if !decl.kind.isOpen then some decl.kind
    else if decl.kind.base = .unknownItem then some (Descriptor.filesFor decl.kind)
    else (nameKind? decl.name.spelling.toList).map fun kind => kind.getD .unknown
  | other => some other.inferredKind

/-- the framework of a short name -/
def framework? (s : String) : Option (Option Framework) :=
  let (main, suffix) := Framework.cutSuffix (foldCase (trimmed s))
  match Framework.shortForms.find? fun form => form.1.toList.isPrefixOf main with
  | none => some none
  | some (begin, identifier) => do
    let digits ← from? (width begin.toList) main
    some ((Framework.shortVersion? digits).map fun version =>
      let modern := identifier = Framework.netFramework && 5 ≤ version.major
      let identifier := if modern then Framework.netCoreApp else identifier
      let profile := if identifier = Framework.netCoreApp then none else suffix
      ⟨identifier, version, String.ofList (Framework.capitalized (profile.getD []))⟩)

theorem utf8Size_toLower (c : Char) : c.toLower.utf8Size = c.utf8Size := by
  rw [← Text.Utf8.length_encodeChar, Text.Utf8.encodeChar_toLower, List.length_map,
    Text.Utf8.length_encodeChar]

theorem width_map_toLower (cs : List Char) : width (cs.map Char.toLower) = width cs := by
  induction cs with
  | nil => rfl
  | cons c cs ih => rw [List.map_cons, Text.width_cons, Text.width_cons, ih, utf8Size_toLower]

/-- texts that differ in case only have the same width -/
theorem width_of_foldCase {word : String} (h : cs.map Char.toLower = foldCase word) :
    width cs = width word.toList := by
  rw [← width_map_toLower, h, foldCase, width_map_toLower]

theorem isPrefixOf_foldCase {name : List Char} {word : String} :
    (foldCase word).isPrefixOf (name.map Char.toLower) = true ↔
      ∃ front back, name = front ++ back ∧ front.map Char.toLower = foldCase word := by
  rw [List.isPrefixOf_iff_prefix]
  constructor
  · rintro ⟨after, h⟩
    obtain ⟨front, back, heq, hfront, -⟩ := List.map_eq_append_iff.1 h.symm
    exact ⟨front, back, heq, hfront⟩
  · rintro ⟨front, back, rfl, hfront⟩
    rw [List.map_append, hfront]
    exact List.prefix_append _ _

theorem isSuffixOf_foldCase {name : List Char} {ending : String} :
    (foldCase ending).isSuffixOf (name.map Char.toLower) = true ↔
      ∃ front back, name = front ++ back ∧ back.map Char.toLower = foldCase ending := by
  rw [List.isSuffixOf_iff_suffix]
  constructor
  · rintro ⟨before, h⟩
    obtain ⟨front, back, heq, -, hback⟩ := List.map_eq_append_iff.1 h.symm
    exact ⟨front, back, heq, hback⟩
  · rintro ⟨front, back, rfl, hback⟩
    rw [List.map_append, hback]
    exact List.suffix_append _ _

/-- after a front that spells the word in some case stands the character at the word's length -/
theorem getElem?_length {front back : List Char} {word : String}
    (h : front.map Char.toLower = foldCase word) : (front ++ back)[word.length]? = back.head? := by
  have hlength : front.length = word.length := by
    rw [← List.length_map Char.toLower, h, foldCase, List.length_map, String.length_toList]
  rw [List.getElem?_append_right (Nat.le_of_eq hlength), hlength, Nat.sub_self,
    List.head?_eq_getElem?]

theorem beginsWithWord?_eq (name : List Char) (word : String) :
    beginsWithWord? name word = some (NameHint.beginsWithWord name word) := by
  rw [beginsWithWord?, NameHint.beginsWithWord]
  by_cases hbegins : (foldCase word).isPrefixOf (name.map Char.toLower) = true
  · obtain ⟨front, back, rfl, hfront⟩ := isPrefixOf_foldCase.1 hbegins
    rw [hbegins, Bool.true_and, getElem?_length hfront, ← width_of_foldCase hfront]
    simp only [cut?_append, upto?_append, from?_append, hfront, Option.bind_eq_bind,
      Option.bind_some, beq_self_eq_true, Bool.true_and, Option.isSome_some, and_true]
    split
    · rfl
    · next hlt =>
      have hback : back = [] := by
        rw [Text.width_append] at hlt
        exact Text.width_eq_zero.1 (by omega)
      rw [hback]
      rfl
  · rw [Bool.eq_false_iff.2 hbegins, Bool.false_and]
    split
    · next h =>
      obtain ⟨⟨front, back⟩, hcut⟩ := Option.isSome_iff_exists.1 h.2
      obtain ⟨rfl, hwidth⟩ := cut?_eq_some_iff.1 hcut
      have hne : ¬front.map Char.toLower = foldCase word := fun heq =>
        hbegins (isPrefixOf_foldCase.2 ⟨front, back, rfl, heq⟩)
      simp only [hwidth, upto?_append, from?_append, Option.bind_eq_bind, Option.bind_some,
        beq_eq_false_iff_ne.2 hne, Bool.false_and]
    · rfl

theorem endsWith?_eq (name : List Char) (ending : String) :
    endsWith? name ending = some (NameHint.endsWith name ending) := by
  rw [endsWith?, NameHint.endsWith]
  by_cases hsuffix : (foldCase ending).isSuffixOf (name.map Char.toLower) = true
  · obtain ⟨front, back, rfl, hback⟩ := isSuffixOf_foldCase.1 hsuffix
    have hle : width back ≤ width (front ++ back) := by
      rw [Text.width_append]
      omega
    have hstart : width (front ++ back) - width back = width front := by
      rw [Text.width_append, Nat.add_sub_cancel]
    rw [hsuffix, ← width_of_foldCase hback]
    simp only [if_pos hle, sub?_of_le hle, hstart, cut?_append, from?_append, hback,
      Option.bind_eq_bind, Option.bind_some, Option.isSome_some, if_true, Option.map_some,
      beq_self_eq_true]
  · rw [Bool.eq_false_iff.2 hsuffix]
    split
    · next hle =>
      simp only [sub?_of_le hle, Option.bind_eq_bind, Option.bind_some]
      split
      · next h =>
        obtain ⟨⟨front, back⟩, hcut⟩ := Option.isSome_iff_exists.1 h
        obtain ⟨rfl, hwidth⟩ := cut?_eq_some_iff.1 hcut
        have hne : ¬back.map Char.toLower = foldCase ending := fun heq =>
          hsuffix (isSuffixOf_foldCase.2 ⟨front, back, rfl, heq⟩)
        simp only [hwidth, from?_append, Option.map_some, beq_eq_false_iff_ne.2 hne]
      · rfl
    · rfl

theorem nameKind?_eq (name : List Char) : nameKind? name = some (NameHint.kind? name) := by
  have hbegins : beginsWithWord? name = fun word => pure (NameHint.beginsWithWord name word) :=
    funext (beginsWithWord?_eq name)
  have hends : endsWith? name = fun ending => pure (NameHint.endsWith name ending) :=
    funext (endsWith?_eq name)
  simp only [nameKind?, hbegins, hends, List.anyM_pure, List.findM?_pure, NameHint.kind?]
  cases NameHint.booleanWords.any (NameHint.beginsWithWord name) <;> rfl

theorem inferredKind?_eq (d : Descriptor) : inferredKind? d = some d.inferredKind := by
  cases d with
  | property decl =>
    have hkind : (Descriptor.property decl).kind = decl.kind := rfl
    rw [inferredKind?, Descriptor.inferredKind, hkind, nameKind?_eq]
    simp only [Option.map_some, apply_ite some]
  | metadata decl =>
    have hkind : (Descriptor.metadata decl).kind = decl.kind := rfl
    rw [inferredKind?, Descriptor.inferredKind, hkind, nameKind?_eq]
    simp only [Option.map_some, apply_ite some]
  | element | attr | item | task | parameter | target | constant | framework | file | function
  | klass => rfl

theorem framework?_eq (s : String) : framework? s = some (Framework.parse? s) := by
  unfold framework? Framework.parse?
  rcases Framework.cutSuffix (foldCase (trimmed s)) with ⟨main, suffix⟩
  simp only
  cases hfind : Framework.shortForms.find? fun form => form.1.toList.isPrefixOf main with
  | none => rfl
  | some form =>
    obtain ⟨begin, identifier⟩ := form
    obtain ⟨hbegins, -⟩ := List.find?_eq_some_iff_append.1 hfind
    obtain ⟨digits, rfl⟩ := List.isPrefixOf_iff_prefix.1 hbegins
    have hdrop : (begin.toList ++ digits).drop begin.length = digits := by
      rw [← String.length_toList, List.drop_left]
    simp only [from?_append, hdrop, Option.bind_eq_bind, Option.bind_some]
    cases Framework.shortVersion? digits <;> rfl

end ProjectSense.Checked
