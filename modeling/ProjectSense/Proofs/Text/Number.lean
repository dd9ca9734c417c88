import Mathlib.Data.List.Forall2
import Mathlib.Data.Nat.Digits.Defs
import ProjectSense.Proofs.Text.Case
import ProjectSense.Text.Number

/-!
# Numbers written in digits

* `IsDigit`, `IsNumeral`: digits, and the number that they write.
* `number?_eq_some_iff`: which texts are read as numbers, and as which.
* `word?_toDigits`: a number that was written is read again.
-/

namespace ProjectSense

variable {base limit n d : Nat} {c : Char} {cs : List Char}

/-! ### Digits -/

/-- the character is a digit of the base, at most sixteen; a letter may be of either case -/
def IsDigit (base : Nat) (c : Char) (d : Nat) : Prop :=
  d < base ∧ ("0123456789abcdef".toList[d]? = some c ∨ "0123456789ABCDEF".toList[d]? = some c)

instance (base : Nat) (c : Char) (d : Nat) : Decidable (IsDigit base c d) :=
  inferInstanceAs (Decidable (_ ∧ _))

theorem IsDigit.mono {more : Nat} (h : IsDigit base c d) (hle : base ≤ more) : IsDigit more c d :=
  ⟨h.1.trans_le hle, h.2⟩

theorem toNat_lt_of_hexValue? (h : hexValue? c = some d) : c.toNat < 128 := by
  have hle : ∀ e : Char, c ≤ e → c.toNat ≤ e.toNat := fun e he => Char.le_def.1 he
  unfold hexValue? at h
  split at h
  · next hc => exact (hle _ hc.2).trans_lt (by decide)
  split at h
  · next hc => exact (hle _ hc.2).trans_lt (by decide)
  split at h
  · next hc => exact (hle _ hc.2).trans_lt (by decide)
  · cases h

theorem hexValue?_eq_some_iff : hexValue? c = some d ↔ IsDigit 16 c d := by
  constructor
  · intro h
    exact of_ascii (p := fun c => ∀ d ∈ hexValue? c, IsDigit 16 c d) (by decide +kernel)
      (toNat_lt_of_hexValue? h) d h
  · rintro ⟨hd, hlower | hupper⟩
    · have hall : ∀ d < 16, ("0123456789abcdef".toList[d]?).map hexValue? = some (some d) := by
        decide +kernel
      have hc := hall d hd
      rw [hlower] at hc
      exact Option.some.inj hc
    · have hall : ∀ d < 16, ("0123456789ABCDEF".toList[d]?).map hexValue? = some (some d) := by
        decide +kernel
      have hc := hall d hd
      rw [hupper] at hc
      exact Option.some.inj hc

theorem digit?_eq_some_iff (hbase : base ≤ 16) :
    Number.digit? base c = some d ↔ IsDigit base c d := by
  rw [Number.digit?, Option.filter_eq_some_iff, hexValue?_eq_some_iff, decide_eq_true_eq]
  exact ⟨fun h => ⟨h.2, h.1.2⟩, fun h => ⟨h.mono hbase, h.1⟩⟩

theorem IsDigit.isSome_hexValue? (h : IsDigit base c d) (hbase : base ≤ 16) :
    (hexValue? c).isSome = true := by
  rw [hexValue?_eq_some_iff.2 (h.mono hbase)]
  rfl

/-! ### Numerals -/

/-- the digits, one at least, write the number -/
def IsNumeral (base : Nat) (digits : List Char) (n : Nat) : Prop :=
  digits ≠ [] ∧ ∃ ds, List.Forall₂ (IsDigit base) digits ds ∧ n = Nat.ofDigits base ds.reverse

theorem ofDigits_reverse_cons (base d : Nat) (ds : List Nat) :
    Nat.ofDigits base (d :: ds).reverse =
      Nat.ofDigits base ds.reverse + base ^ ds.length * d := by
  rw [List.reverse_cons, Nat.ofDigits_append, Nat.ofDigits_singleton, List.length_reverse]

/-- what digits after a number make of it -/
theorem extend?_eq_some_iff (hpos : 0 < base) (hbase : base ≤ 16) {m : Nat} (hm : m ≤ limit) :
    Number.extend? base limit m cs = some n ↔ n ≤ limit ∧ ∃ ds,
      List.Forall₂ (IsDigit base) cs ds ∧
        n = Nat.ofDigits base ds.reverse + base ^ ds.length * m := by
  induction cs generalizing m with
  | nil =>
    rw [Number.extend?]
    constructor
    · rintro ⟨⟩
      exact ⟨hm, [], .nil, by simp⟩
    · rintro ⟨-, ds, hds, rfl⟩
      cases hds
      simp
  | cons c cs ih =>
    -- the digit in front counts for as many places as follow it
    have hvalue : ∀ d ds, Nat.ofDigits base (d :: ds).reverse + base ^ (d :: ds).length * m =
        Nat.ofDigits base ds.reverse + base ^ ds.length * (m * base + d) := by
      intro d ds
      rw [ofDigits_reverse_cons, List.length_cons]
      ring
    rw [Number.extend?]
    constructor
    · intro h
      split at h
      · next d hd =>
        split at h
        · next hle =>
          obtain ⟨hn, ds, hds, rfl⟩ := (ih hle).1 h
          exact ⟨hn, d :: ds, .cons ((digit?_eq_some_iff hbase).1 hd) hds, (hvalue d ds).symm⟩
        · cases h
      · cases h
    · rintro ⟨hn, ds, hds, hsum⟩
      cases hds with
      | @cons _ d _ ds hd hds =>
        rw [hvalue] at hsum
        have hle : m * base + d ≤ limit :=
          calc m * base + d ≤ base ^ ds.length * (m * base + d) :=
                Nat.le_mul_of_pos_left _ (Nat.pow_pos hpos)
            _ ≤ n := hsum ▸ Nat.le_add_left _ _
            _ ≤ limit := hn
        rw [(digit?_eq_some_iff hbase).2 hd]
        dsimp only
        rw [if_pos hle]
        exact (ih hle).2 ⟨hn, ds, hds, hsum⟩

theorem not_isNumeral_nil : ¬IsNumeral base [] n := fun h => h.1 rfl

theorem IsNumeral.exists_digit (h : IsNumeral base cs n) : ∀ c ∈ cs, ∃ d, IsDigit base c d := by
  obtain ⟨-, ds, hds, -⟩ := h
  induction hds with
  | nil => simp
  | cons hd _ ih => exact List.forall_mem_cons.2 ⟨⟨_, hd⟩, ih⟩

theorem IsNumeral.isSome_hexValue? (h : IsNumeral base cs n) (hbase : base ≤ 16) :
    ∀ c ∈ cs, (hexValue? c).isSome = true := fun c hc =>
  (h.exists_digit c hc).elim fun _ hd => hd.isSome_hexValue? hbase

theorem extend?_zero_iff (hpos : 0 < base) (hbase : base ≤ 16) (hne : cs ≠ []) :
    Number.extend? base limit 0 cs = some n ↔ n ≤ limit ∧ IsNumeral base cs n := by
  rw [extend?_eq_some_iff hpos hbase (Nat.zero_le limit), IsNumeral]
  simp [hne]

/-- digits are read as the number that they write, and a sign in front makes no difference -/
theorem number?_eq_some_iff (hpos : 0 < base) (hbase : base ≤ 16) :
    number? base limit cs = some n ↔ n ≤ limit ∧
      (IsNumeral base cs n ∨ ∃ digits, cs = '+' :: digits ∧ IsNumeral base digits n) := by
  have hplus : ∀ digits, ¬IsNumeral base ('+' :: digits) n := fun digits h =>
    absurd (h.isSome_hexValue? hbase '+' List.mem_cons_self) (by decide)
  fun_cases number? base limit cs with
  | case1 => simp [not_isNumeral_nil]
  | case2 => simp [hplus, not_isNumeral_nil]
  | case3 digits hne =>
    rw [extend?_zero_iff hpos hbase (by simpa using hne)]
    simp [hplus]
  | case4 _ hnil _ hsign =>
    rw [extend?_zero_iff hpos hbase hnil]
    refine and_congr_right fun _ => ⟨.inl, fun h => h.resolve_right ?_⟩
    rintro ⟨digits, rfl, -⟩
    exact hsign digits rfl

/-! ### Decimal digits -/

theorem isDigit_digitChar : ∀ d < 10, IsDigit 10 d.digitChar d := by decide

/-- the digits with which a number is written write it -/
theorem isNumeral_toDigits (n : Nat) : IsNumeral 10 (Nat.toDigits 10 n) n := by
  induction n using Nat.strong_induction_on with
  | h n ih =>
    rw [Nat.toDigits_eq_if (by decide)]
    split
    · next hn => exact ⟨by simp, [n], .cons (isDigit_digitChar n hn) .nil, by simp⟩
    · next hn =>
      obtain ⟨-, ds, hds, hvalue⟩ := ih (n / 10) (by omega)
      refine ⟨by simp, ds ++ [n % 10], ?_, ?_⟩
      · exact List.rel_append hds (.cons (isDigit_digitChar _ (Nat.mod_lt n (by decide))) .nil)
      · rw [List.reverse_append, List.reverse_singleton, List.singleton_append, Nat.ofDigits_cons,
          ← hvalue]
        exact (Nat.mod_add_div n 10).symm

theorem word?_toDigits (n : UInt32) : word? (Nat.toDigits 10 n.toNat) = some n := by
  have hread : number? 10 Number.maxWord (Nat.toDigits 10 n.toNat) = some n.toNat :=
    (number?_eq_some_iff (by decide) (by decide)).2
      ⟨Nat.le_sub_one_of_lt n.toNat_lt, .inl (isNumeral_toDigits n.toNat)⟩
  rw [word?, hread, Option.map_some, UInt32.ofNat_toNat]

end ProjectSense
