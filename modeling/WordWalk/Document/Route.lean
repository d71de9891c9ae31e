import WordWalk.Route
import WordWalk.Json.Printer
import WordWalk.Json.Skip

/-! # Route documents

A route is written as an object with its nodes and its labels. It may be read from such
an object, with the two members in any order and others among them, or from the list of
nodes and labels.
-/

namespace WordWalk.Route

open WordWalk.Json (Reader Fault)
open WordWalk.Json.Reader

def toJson (r : Route) : Json :=
  .object [("nodes", .ofTexts r.nodes), ("labels", .ofTexts r.labels)]

structure Fields where
  nodes : Option (List String) := none
  labels : Option (List String) := none

/-- The route of all members, once the closing brace is read. Nodes are missed first. -/
def Fields.finish (fields : Fields) : Reader Route := fun rest =>
  match fields.nodes, fields.labels with
  | some nodes, some labels => .ok (⟨nodes, labels⟩, rest)
  | none, _ => .error (.before (.missingField "nodes") rest)
  | some _, none => .error (.before (.missingField "labels") rest)

/-- The fault of a member that was read before. Blanks after its name count as read, and a
    closing brace after them. -/
def repeatedField {α : Type} (name : String) (rest : List Char) : Except Fault α :=
  match skipBlanks rest with
  | '\x7d' :: rest => .error (.before (.duplicateField name) rest)
  | rest => .error (.before (.duplicateField name) rest)

/-- Reads a member after the opening quote of its name. Unknown ones are passed over. -/
def Fields.member (fields : Fields) (fuel : Nat) : Reader Fields := fun cs => do
  let (name, rest) ← string cs
  match name with
  | "nodes" =>
      if fields.nodes.isSome then repeatedField name rest
      else
        let (nodes, rest) ← listOf fuel Reader.text (← colon rest)
        return ({ fields with nodes := some nodes }, rest)
  | "labels" =>
      if fields.labels.isSome then repeatedField name rest
      else
        let (labels, rest) ← listOf fuel Reader.text (← colon rest)
        return ({ fields with labels := some labels }, rest)
  | _ => return (fields, ← skipValue fuel (← colon rest))

/-- Reads the members after the first of them. -/
def Fields.readFrom (total : Nat) : Nat → Fields → Reader Route
  | 0, _, cs => .error (.before .endInObject cs)
  | fuel + 1, fields, cs =>
      match skipBlanks cs with
      | [] => .error (.before .endInObject [])
      | '\x7d' :: rest => fields.finish rest
      | ',' :: rest =>
          match skipBlanks rest with
          | [] => .error (.before .endInValue [])
          | '"' :: rest => do
              let (fields, rest) ← fields.member total rest
              Fields.readFrom total fuel fields rest
          | '\x7d' :: rest => .error (.at .trailingComma ('\x7d' :: rest))
          | rest => .error (.at .keyNotText rest)
      | rest => .error (.at .expectedCommaOrBrace rest)

def Fields.read (fuel : Nat) : Reader Route := fun cs =>
  match skipBlanks cs with
  | [] => .error (.before .endInObject [])
  | '\x7d' :: rest => ({} : Fields).finish rest
  | '"' :: rest => do
      let (fields, rest) ← ({} : Fields).member fuel rest
      Fields.readFrom fuel fuel fields rest
  | rest => .error (.at .keyNotText rest)

def reader (fuel : Nat) : Reader Route := fun cs =>
  match skipBlanks cs with
  | '[' :: rest => do
      let ((nodes, labels), rest) ← twoItems .route (listOf fuel Reader.text) rest
      return (⟨nodes, labels⟩, rest)
  | '\x7b' :: rest => Fields.read fuel rest
  | rest => mismatch .route rest

end WordWalk.Route
