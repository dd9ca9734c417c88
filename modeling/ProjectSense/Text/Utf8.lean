/-!
# UTF-8

Writing characters as bytes, and reading bytes back with every maximal ill-formed stretch replaced
by one U+FFFD.

* `encode_of_decode?`: bytes read without replacement are the bytes of what was read.
-/

namespace ProjectSense.Text.Utf8

/-- the bytes of a character -/
def encodeChar (c : Char) : List UInt8 :=
  let n := c.toNat
  if n < 0x80 then [.ofNat n]
  else if n < 0x800 then [.ofNat (0xC0 + n / 0x40), .ofNat (0x80 + n % 0x40)]
  else if n < 0x10000 then
    [.ofNat (0xE0 + n / 0x1000), .ofNat (0x80 + n / 0x40 % 0x40), .ofNat (0x80 + n % 0x40)]
  else
    [.ofNat (0xF0 + n / 0x40000), .ofNat (0x80 + n / 0x1000 % 0x40),
      .ofNat (0x80 + n / 0x40 % 0x40), .ofNat (0x80 + n % 0x40)]

def encode (cs : List Char) : List UInt8 := cs.flatMap encodeChar

/-- a character begun but not ended: the tails it still owes, the bounds of the next one, and the
bits read so far -/
structure Partial where
  owed : Nat
  low : Nat
  high : Nat
  bits : Nat
deriving DecidableEq, Repr

/-- what the lead byte of a longer character announces -/
def lead? (b : Nat) : Option Partial :=
  if 0xC2 ≤ b ∧ b ≤ 0xDF then some ⟨1, 0x80, 0xBF, b - 0xC0⟩
  else if b = 0xE0 then some ⟨2, 0xA0, 0xBF, 0⟩
  else if b = 0xED then some ⟨2, 0x80, 0x9F, 0xD⟩
  else if 0xE1 ≤ b ∧ b ≤ 0xEF then some ⟨2, 0x80, 0xBF, b - 0xE0⟩
  else if b = 0xF0 then some ⟨3, 0x90, 0xBF, 0⟩
  else if 0xF1 ≤ b ∧ b ≤ 0xF3 then some ⟨3, 0x80, 0xBF, b - 0xF0⟩
  else if b = 0xF4 then some ⟨3, 0x80, 0x8F, 4⟩
  else none

/-- stands for an ill-formed stretch -/
def replacement : Char := '\uFFFD'

/-- the characters that a byte between characters completes, and what it leaves open -/
def begin (b : Nat) : List Char × Option Partial :=
  if b < 0x80 then ([Char.ofNat b], none)
  else match lead? b with
    | some p => ([], some p)
    | none => ([replacement], none)

/-- the characters that a byte completes, and what it leaves open -/
def step : Option Partial → Nat → List Char × Option Partial
  | none, b => begin b
  | some p, b =>
    if p.low ≤ b ∧ b ≤ p.high then
      let bits := p.bits * 0x40 + (b - 0x80)
      if p.owed = 1 then ([Char.ofNat bits], none)
      else ([], some ⟨p.owed - 1, 0x80, 0xBF, bits⟩)
    else (replacement :: (begin b).1, (begin b).2)

/-- the characters of the bytes that follow an open character -/
def decodeFrom : Option Partial → List UInt8 → List Char
  | none, [] => []
  | some _, [] => [replacement]
  | open?, b :: bs => (step open? b.toNat).1 ++ decodeFrom (step open? b.toNat).2 bs

/-- the text of the bytes -/
def decode (bs : List UInt8) : List Char := decodeFrom none bs

/-- the text whose UTF-8 form the bytes are: reading replaces nothing just when writing gives the
bytes back -/
def decode? (bs : List UInt8) : Option String :=
  if encode (decode bs) = bs then some (String.ofList (decode bs)) else none

@[simp] theorem encode_nil : encode [] = [] := rfl

@[simp] theorem encode_cons (c : Char) (cs : List Char) :
    encode (c :: cs) = encodeChar c ++ encode cs := rfl

theorem encode_of_decode? {bs : List UInt8} {s : String} (h : decode? bs = some s) :
    encode s.toList = bs := by
  unfold decode? at h
  split at h
  · obtain rfl := Option.some.inj h
    simpa
  · cases h

end ProjectSense.Text.Utf8
