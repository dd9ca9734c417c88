import ProjectSense.Text.Blank
import ProjectSense.Text.Name

/-!
# Tools versions

The version of the tools that a project asks for.  Versions are ordered, except that an unknown one
is at least nothing.

* `ToolsVersion.atLeast`: the order.
-/

namespace ProjectSense

inductive ToolsVersion where
  | unknown
  | v2
  | v3
  | v4
  | v12
  | v14
  | v15
  | current
deriving DecidableEq, Repr, Inhabited

namespace ToolsVersion

def parse (s : String) : ToolsVersion :=
  match trimmed s with
  | "2.0" => v2
  | "3.5" => v3
  | "4.0" => v4
  | "12.0" => v12
  | "14.0" => v14
  | "15.0" => v15
  | t => if sameName t "current" then current else unknown

def text : ToolsVersion → String
  | unknown => "Unknown"
  | v2 => "2.0"
  | v3 => "3.5"
  | v4 => "4.0"
  | v12 => "12.0"
  | v14 => "14.0"
  | v15 => "15.0"
  | current => "Current"

/-- the place in the order -/
def rank : ToolsVersion → Nat
  | unknown => 0
  | v2 => 1
  | v3 => 2
  | v4 => 3
  | v12 => 4
  | v14 => 5
  | v15 => 6
  | current => 7

def atLeast (v w : ToolsVersion) : Bool := v ≠ unknown && w.rank ≤ v.rank

end ToolsVersion
end ProjectSense
