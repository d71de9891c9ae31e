import WordWalk.Files
import WordWalk.Document.Graph
import WordWalk.Document.Grammar

/-! # Loading documents

Graphs and grammars come from texts, and texts from files. A fault names the origin of
the text. A grammar that is well-formed JSON of another shape is a fault of its own.
-/

namespace WordWalk

/-- Why a document could not be loaded. -/
inductive LoadError where
  | unreadable (path : String) (why : OsFault)
  | parse (origin : String) (why : Json.Error)
  | grammar (origin : String) (why : ShapeError)
  deriving Repr

def LoadError.message : LoadError → String
  | unreadable path why => s!"Failed to read file '{path}': {why.text}"
  | parse origin why => s!"Failed to parse JSON from '{origin}': {why.message}"
  | grammar origin why => s!"Invalid grammar in '{origin}': {why.message}"

def parseGraph (origin source : String) : Except LoadError Graph :=
  (Json.read Graph.reader source).mapError (.parse origin)

def parseGrammar (origin source : String) : Except LoadError Grammar := do
  let v ← (Json.parse source).mapError (.parse origin)
  (Grammar.ofJson v).mapError (.grammar origin)

/-- The document of a file whose contents are known, if it could be read. -/
def loadWith {α : Type} (parse : String → String → Except LoadError α) (path : String)
    (contents : Except OsFault String) : Except LoadError α := do
  parse path (← contents.mapError (.unreadable path))

end WordWalk
