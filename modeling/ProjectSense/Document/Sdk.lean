import ProjectSense.Text.Break
import ProjectSense.Text.Blank
import ProjectSense.Text.Name

/-!
# SDK references

A project names its SDKs as `Name`, `Name/Version` or `Name/min=Version`.

* `SdkReference.parse?`, `SdkReference.text`: reading and writing.
-/

namespace ProjectSense

structure SdkReference where
  name : String
  version : Option String
  minimum : Option String
deriving DecidableEq, Repr, Inhabited

namespace SdkReference

/-- the version part: a version, or `min=` and the least version -/
def parseVersion? (name v : List Char) : Option SdkReference :=
  if v = [] then none
  else match Text.breakOn ['='] v with
    | (_, none) => some ⟨String.ofList name, some (String.ofList v), none⟩
    | (key, some rest) =>
      let least := Text.trim rest
      if (Text.trim key).map Char.toLower = ['m', 'i', 'n'] ∧ least ≠ [] then
        some ⟨String.ofList name, none, some (String.ofList least)⟩
      else none

/-- the reference that a text writes; nothing is guessed -/
def parse? (s : String) : Option SdkReference :=
  match Text.splitOn (· == '/') (Text.trim s.toList) with
  | [name] =>
    let name := Text.trim name
    if name = [] then none else some ⟨String.ofList name, none, none⟩
  | [name, v] =>
    let name := Text.trim name
    if name = [] then none else parseVersion? name (Text.trim v)
  | _ => none

def text (sdk : SdkReference) : String :=
  sdk.name ++ match sdk.version, sdk.minimum with
    | some v, _ => "/" ++ v
    | none, some v => "/min=" ++ v
    | none, none => ""

end SdkReference
end ProjectSense
