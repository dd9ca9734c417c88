import ProjectSense.Framework.Basic

/-!
# Guessing frameworks

A project may name a framework by its identifier, its version or its profile alone.  The frameworks
that the document targets are tried first, then the known ones.

* `Framework.guessIdentifier?`, `Framework.guessVersion?`, `Framework.guessProfile?`.
-/

namespace ProjectSense

/-- where guesses may come from -/
structure GuessPolicy where
  /-- the frameworks of the document come first -/
  preferDocument : Bool := true
  /-- then the known table -/
  fallBack : Bool := true
deriving DecidableEq, Repr, Inhabited

namespace Framework

/-- the first answer that the policy allows -/
def guess? (policy : GuessPolicy) (own table : Option NamedFramework) : Option NamedFramework :=
  (if policy.preferDocument then own else none).or (if policy.fallBack then table else none)

/-- the framework that the document targets and that satisfies `p`, under the given name -/
def ownAs (name : String) (document : List Framework) (p : Framework → Bool) :
    Option NamedFramework := (document.find? p).map fun f => ⟨name, f⟩

def guessIdentifier? (policy : GuessPolicy) (document : List Framework) (identifier : String) :
    Option NamedFramework :=
  guess? policy (ownAs identifier document fun f => sameName f.identifier identifier)
    (versionsOf identifier).getLast?

/-- the version may have a `v` in front -/
def guessVersion? (policy : GuessPolicy) (document : List Framework) (version : String) :
    Option NamedFramework :=
  match FrameworkVersion.parse? (version.toList.dropWhile fun c => c = 'v' || c = 'V') with
  | none => none
  | some parsed =>
    guess? policy (ownAs version document fun f => f.version = parsed)
      ((document.flatMap fun f => versionsOf f.identifier).find? (·.framework.version = parsed))

def guessProfile? (policy : GuessPolicy) (document : List Framework) (profile : String) :
    Option NamedFramework :=
  guess? policy (ownAs profile document fun f => sameName f.profile profile)
    ((document.flatMap fun f => profilesOf f.identifier f.version).find?
      fun f => sameName f.name profile)

end Framework
end ProjectSense
