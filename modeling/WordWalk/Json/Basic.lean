import Std.Data.TreeMap
import WordWalk.Decimal.Shortest

/-! # JSON values

Values of the untyped data format in which graphs, grammars and results are written.
-/

namespace WordWalk

/-- A number: whole, or a binary fraction with a sign of its own. -/
inductive Number where
  | integer (n : Int)
  | real (negative : Bool) (magnitude : Binary)
  deriving DecidableEq, Repr

/-- Whole numbers are plain; all others have a point or an exponent. -/
def Number.text : Number → String
  | integer n => toString n
  | real negative magnitude => (if negative then "-" else "") ++ magnitude.shortest.text

/-- A JSON value. The members of an object are written in the order given. -/
inductive Json where
  | null
  | bool (b : Bool)
  | number (n : Number)
  | text (s : String)
  | list (items : List Json)
  | object (members : List (String × Json))
  deriving Repr, Inhabited

namespace Json

/-- The object with these members by ascending name. Of several members with one name the
    last one stays. -/
def ofMembers (members : List (String × Json)) : Json :=
  .object (Std.TreeMap.ofList members).toList

/-- The shape of a value, contents aside. -/
inductive Kind where
  | null
  | boolean
  | number
  | text
  | list
  | object
  deriving DecidableEq, Repr

def Kind.name : Kind → String
  | null => "null"
  | boolean => "a boolean"
  | number => "a number"
  | text => "a string"
  | list => "a list"
  | object => "an object"

def kind : Json → Kind
  | .null => .null
  | .bool _ => .boolean
  | .number _ => .number
  | .text _ => .text
  | .list _ => .list
  | .object _ => .object

def ofTexts (texts : List String) : Json := .list (texts.map .text)

end Json

end WordWalk
