import ProjectSense.Document.Harvest
import ProjectSense.Document.Sdk
import ProjectSense.Markup.Reader
import ProjectSense.Path.Component
import ProjectSense.Schema.Registry
import ProjectSense.Workspace.Listing

/-!
# Documents

A document is a parsed project with what it declares, the schemas that it is read with, and a view
of its surroundings.  Its registry and the values of its properties follow from these; they are
built once and kept until the schemas change.

* `Document.parse`, `Document.build`: from a text to a document.
* `Document.withSchemas`: other schemas, with the registry and the values built anew.
-/

namespace ProjectSense

/-- where an SDK keeps its files -/
abbrev SdkLocator := SdkReference → Option String

/-- what a document is built from -/
structure Document.Basis where
  path : String
  tree : Tree
  harvest : Harvest
  /-- the user's schemas, the more specific first -/
  schemas : List Schema
  /-- values that replace the document's own -/
  givenValues : Option Values
  sdks : SdkLocator
  listing : Listing

namespace Document

/-- a text alone, without schemas and surroundings -/
def parse (path text : String) : Basis :=
  let tree := Tree.parse text
  ⟨path, tree, Harvest.ofTree tree, [], none, fun _ => none, .empty⟩

/-- the values with more at the end of those of a property -/
def extend (vs : Values) (name : String) (more : List String) : Values :=
  match more.foldl addName (vs.valuesOf name) with
  | [] => vs
  | values => vs.insert ⟨name⟩ values

namespace Basis

/-- the document's own schema, the user's, then the built-in one -/
def sources (b : Basis) : List Schema := b.harvest.schema :: b.schemas ++ [Schema.builtin]

/-- the values seen in the document, with the configurations and platforms of every schema -/
def ownValues (b : Basis) (r : Registry) : Values :=
  extend (extend b.harvest.values "Configuration" r.configurations) "Platform" r.platforms

end Basis
end Document

/-- a document with what follows from its schemas, as it was last built -/
structure Document extends Document.Basis where
  registry : Registry := .ofSources toBasis.sources
  /-- the values that properties can take -/
  values : Values := toBasis.givenValues.getD (toBasis.ownValues registry)

namespace Document

/-- the document with its registry and values -/
def build (b : Basis) : Document := { b with }

/-- builds the registry anew, and the values unless they were given -/
def rebuild (d : Document) : Document :=
  let registry := Registry.ofSources d.sources
  let values := if d.givenValues.isSome then d.values else d.ownValues registry
  { d with registry := registry, values := values }

def withSchemas (d : Document) (schemas : List Schema) : Document :=
  rebuild { d with schemas := schemas }

def withSdks (d : Document) (sdks : SdkLocator) : Document := { d with sdks := sdks }

def withListing (d : Document) (listing : Listing) : Document := { d with listing := listing }

def directory (d : Document) : String := directoryOf d.path

def toolsVersion (d : Document) : ToolsVersion := d.harvest.toolsVersion

def frameworks (d : Document) : List Framework := d.harvest.frameworks

end Document
end ProjectSense
