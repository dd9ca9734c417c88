import ProjectSense.Text.Number
import ProjectSense.Text.Break

/-!
# Framework versions

A version has four parts of 32 bits; parts that are not written are zero.  Written, it shows at
least two parts and no zeros after them.

* `FrameworkVersion.parse?`, `FrameworkVersion.text`: reading and writing.
-/

namespace ProjectSense

structure FrameworkVersion where
  major : UInt32
  minor : UInt32
  build : UInt32
  revision : UInt32
deriving DecidableEq, Repr, Inhabited

namespace FrameworkVersion

def ofMinor (major minor : UInt32) : FrameworkVersion := ⟨major, minor, 0, 0⟩

/-- the version with these parts, two to four of them -/
def ofParts? : List UInt32 → Option FrameworkVersion
  | [a, b] => some ⟨a, b, 0, 0⟩
  | [a, b, c] => some ⟨a, b, c, 0⟩
  | [a, b, c, d] => some ⟨a, b, c, d⟩
  | _ => none

/-- a dotted version of two to four parts -/
def parse? (cs : List Char) : Option FrameworkVersion :=
  (Text.splitOn (· == '.') cs).mapM word? >>= ofParts?

/-- one to four digits, each a part: `472` is 4.7.2 -/
def parseCompact? (cs : List Char) : Option FrameworkVersion :=
  match cs.mapM fun c => (Number.digit? 10 c).map UInt32.ofNat with
  | some [a] => some ⟨a, 0, 0, 0⟩
  | some parts => ofParts? parts
  | none => none

/-- the parts without the zeros at the end, two of them at least -/
def parts (v : FrameworkVersion) : List UInt32 :=
  if v.revision ≠ 0 then [v.major, v.minor, v.build, v.revision]
  else if v.build ≠ 0 then [v.major, v.minor, v.build]
  else [v.major, v.minor]

/-- the decimal digits of a part -/
def partText (n : UInt32) : String := n.toNat.repr

def text (v : FrameworkVersion) : String := ".".intercalate (v.parts.map partText)

/-- the order of versions, part by part -/
def compare (v w : FrameworkVersion) : Ordering :=
  (Ord.compare v.major.toNat w.major.toNat).then <|
    (Ord.compare v.minor.toNat w.minor.toNat).then <|
      (Ord.compare v.build.toNat w.build.toNat).then (Ord.compare v.revision.toNat w.revision.toNat)

end FrameworkVersion
end ProjectSense
