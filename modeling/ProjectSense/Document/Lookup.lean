import ProjectSense.Document.Resolve
import ProjectSense.Framework.Guess

/-!
# Declarations behind references

* `Document.declaration?`: what a reference names, if anything declares it.
-/

namespace ProjectSense
namespace Document

/-- what a reference names.  Well-known metadata and built-in properties come before anything that
a document or a schema declares. -/
def lookUp? (d : Document) (policy : GuessPolicy) (s : Site) : Reference → Option Descriptor
  | .item name => (d.registry.item? name).map .item
  | .metadata item name =>
    ((wellKnownMetadata? name).or (d.registry.metadata? item name)).map .metadata
  | .property name => ((builtinProperty? name).or (d.registry.property? name)).map .property
  | .task name => (d.registry.task? name).map .task
  | .target name => (d.registry.target? name).map .target
  | .element rule => some (.element rule)
  | .attr rule => some (d.registry.attrOn rule s.name)
  | .known value => some (.constant value)
  | .framework name => (Framework.named? name).map .framework
  | .frameworkIdentifier name =>
    (Framework.guessIdentifier? policy d.frameworks name).map .framework
  | .frameworkVersion name => (Framework.guessVersion? policy d.frameworks name).map .framework
  | .frameworkProfile name => (Framework.guessProfile? policy d.frameworks name).map .framework
  | .parameter task name => (d.registry.parameter? task name).map .parameter
  | .itemFunction name => (Functions.onItems? name).map .function
  | .staticFunction klass name => (Functions.ofClass? klass name).map .function
  | .propertyFunction kind name => (Functions.onProperty? kind name).map .function
  | .klass name => ((Functions.klass? name).or (Functions.enumeration? name)).map .klass

/-- the declaration behind a resolution -/
def declaration? (d : Document) (policy : GuessPolicy) (r : Resolution) : Option Descriptor :=
  r.reference >>= d.lookUp? policy r.site

end Document
end ProjectSense
