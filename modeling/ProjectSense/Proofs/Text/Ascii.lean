import Mathlib.Algebra.Group.Nat.Defs
import Mathlib.Data.List.Infix
import ProjectSense.Proofs.Text.Utf8

/-!
# ASCII in bytes of any kind

A byte below 128 is read as its character wherever it stands, and nothing else is read as one.

* `Text.Utf8.Partial.Long`: what is open never ends as an ASCII character.
* `Text.Utf8.count_decode`: how often an ASCII character is read.
* `Text.Utf8.infix_of_encode`: text found among the bytes of a text stands in it.
-/

namespace ProjectSense.Text.Utf8

variable {p q : Partial} {open? : Option Partial} {n : Nat} {b : UInt8} {c : Char}

/-! ### Open characters -/

/-- the least number of the characters that it may become -/
def Partial.least (p : Partial) : Nat :=
  (p.bits * 0x40 + (p.low - 0x80)) * 0x40 ^ (p.owed - 1)

/-- it owes bytes from 128 on, and becomes a character from 128 on -/
structure Partial.Long (p : Partial) : Prop where
  owed : 0 < p.owed
  low : 0x80 ≤ p.low
  least : 0x80 ≤ p.least

theorem long_of_begin (h : (begin b.toNat).2 = some p) : p.Long := by
  have hall : ∀ n < 256, ∀ p ∈ (begin n).2, 0 < p.owed ∧ 0x80 ≤ p.low ∧ 0x80 ≤ p.least := by
    decide +kernel
  obtain ⟨howed, hlow, hleast⟩ := hall b.toNat b.toNat_lt p h
  exact ⟨howed, hlow, hleast⟩

/-- what a byte leaves open is long again -/
theorem long_of_step (hopen : ∀ p ∈ open?, p.Long) (h : (step open? b.toNat).2 = some q) :
    q.Long := by
  cases open? with
  | none => exact long_of_begin h
  | some p =>
    obtain ⟨howed, hlow, hleast⟩ := hopen p rfl
    rw [step] at h
    split at h
    · next hb =>
      split at h
      · cases h
      · next hmore =>
        obtain ⟨k, hk⟩ : ∃ k, p.owed - 1 = k + 1 := ⟨p.owed - 2, by omega⟩
        obtain rfl := Option.some.inj h
        refine ⟨by simp only; omega, le_rfl, hleast.trans ?_⟩
        simp only [Partial.least, hk, Nat.add_sub_cancel, Nat.sub_self, Nat.add_zero]
        -- a place more for the bits read, a place less still owed
        calc (p.bits * 0x40 + (p.low - 0x80)) * 0x40 ^ (k + 1)
            ≤ (p.bits * 0x40 + (b.toNat - 0x80)) * 0x40 ^ (k + 1) :=
              Nat.mul_le_mul_right _ (by omega)
          _ = (p.bits * 0x40 + (b.toNat - 0x80)) * 0x40 * 0x40 ^ k := by
              rw [Nat.pow_succ', Nat.mul_assoc _ 0x40 (0x40 ^ k)]
    · exact long_of_begin h

/-! ### What is read -/

theorem ofNat_ne (hn : 0x80 ≤ n) (hc : c.toNat < 0x80) (h0 : c ≠ '\x00') : Char.ofNat n ≠ c := by
  rintro rfl
  by_cases hvalid : n.isValidChar
  · rw [Char.ofNat, dif_pos hvalid] at hc
    have : (Char.ofNatAux n hvalid).toNat = n := rfl
    omega
  · rw [Char.ofNat, dif_neg hvalid] at h0
    exact h0 rfl

theorem replacement_ne (hc : c.toNat < 0x80) : replacement ≠ c := by
  rintro rfl
  exact absurd hc (by decide)

theorem count_begin (hc : c.toNat < 0x80) :
    (begin b.toNat).1.count c = if b.toNat = c.toNat then 1 else 0 := by
  rw [begin]
  split
  · next hb =>
    have hvalid : b.toNat.isValidChar := .inl (by omega)
    have heq : Char.ofNat b.toNat = c ↔ b.toNat = c.toNat := by
      rw [← Char.toNat_inj, Char.ofNat, dif_pos hvalid]
      rfl
    simp [List.count_singleton, heq]
  · next hb =>
    rw [if_neg (by omega)]
    split
    · rfl
    · simp [replacement_ne hc]

theorem count_step (hc : c.toNat < 0x80) (h0 : c ≠ '\x00') (hopen : ∀ p ∈ open?, p.Long) :
    (step open? b.toNat).1.count c = if b.toNat = c.toNat then 1 else 0 := by
  cases open? with
  | none => exact count_begin hc
  | some p =>
    obtain ⟨howed, hlow, hleast⟩ := hopen p rfl
    rw [step]
    split
    · next hb =>
      have hne : b.toNat ≠ c.toNat := by omega
      rw [if_neg hne]
      dsimp only
      split
      · next hone =>
        rw [Partial.least, hone] at hleast
        have hlong : 0x80 ≤ p.bits * 0x40 + (b.toNat - 0x80) := by
          simp only [Nat.sub_self, Nat.pow_zero, Nat.mul_one] at hleast
          omega
        simp [ofNat_ne hlong hc h0]
      · rfl
    · rw [List.count_cons_of_ne (replacement_ne hc)]
      exact count_begin hc

/-- an ASCII character is read as often as its byte stands there -/
theorem count_decode (hc : c.toNat < 0x80) (h0 : c ≠ '\x00') (bs : List UInt8) :
    (decode bs).count c = bs.count (.ofNat c.toNat) := by
  have key : ∀ open? : Option Partial, (∀ p ∈ open?, p.Long) →
      (decodeFrom open? bs).count c = bs.count (.ofNat c.toNat) := by
    induction bs with
    | nil =>
      intro open? hopen
      cases open? with
      | none => rfl
      | some p => simp [decodeFrom, replacement_ne hc]
    | cons b bs ih =>
      intro open? hopen
      have hbyte : b.toNat = c.toNat ↔ b = .ofNat c.toNat := by
        rw [← UInt8.toNat_inj, toNat_byte (by omega)]
      rw [decodeFrom, List.count_append, count_step hc h0 hopen,
        ih _ fun q hq => long_of_step hopen hq, List.count_cons, Nat.add_comm]
      simp [hbyte]
  exact key none (by simp)

/-! ### Text among bytes -/

theorem decodeFrom_ascii (hb : b.toNat < 0x80) (hopen : ∀ p ∈ open?, p.Long)
    (front bs : List UInt8) : ∃ before,
      decodeFrom open? (front ++ b :: bs) = before ++ Char.ofNat b.toNat :: decode bs := by
  induction front generalizing open? with
  | nil =>
    have hbegin : begin b.toNat = ([Char.ofNat b.toNat], none) := if_pos hb
    rw [List.nil_append, decodeFrom]
    cases open? with
    | none => exact ⟨[], by rw [step, hbegin]; rfl⟩
    | some p =>
      have hlow := (hopen p rfl).low
      refine ⟨[replacement], ?_⟩
      rw [step, if_neg (by omega), hbegin]
      rfl
  | cons d front ih =>
    obtain ⟨before, hbefore⟩ := ih fun q hq => long_of_step (b := d) hopen hq
    exact ⟨_, by rw [List.cons_append, decodeFrom, hbefore, List.append_assoc]⟩

/-- text that begins with ASCII stands where its bytes do -/
theorem infix_of_encode {cs w : List Char} (hc : c.toNat < 0x80)
    (h : encode (c :: w) <:+: encode cs) : c :: w <:+: cs := by
  obtain ⟨front, back, heq⟩ := h
  have hbyte : encodeChar c = [.ofNat c.toNat] := if_pos hc
  rw [encode_cons, hbyte, List.append_assoc, List.append_assoc, List.singleton_append] at heq
  have hascii : (UInt8.ofNat c.toNat).toNat < 0x80 := by rwa [toNat_byte (by omega)]
  obtain ⟨before, hbefore⟩ :=
    @decodeFrom_ascii none _ hascii (by simp) front (encode w ++ back)
  rw [heq, toNat_byte (by omega), Char.ofNat_toNat, decode_encode_append] at hbefore
  refine ⟨before, decode back, ?_⟩
  rw [List.append_assoc, List.cons_append, ← hbefore]
  exact decode_encode cs

end ProjectSense.Text.Utf8
