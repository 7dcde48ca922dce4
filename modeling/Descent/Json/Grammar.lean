import Descent.Blueprint
import Descent.ParseAll
/-!
JSON texts. A value may have blanks on both sides; lists and objects may be empty but for blanks, and
have no comma behind the last item. An object has the last value of each of its keys.
-/
namespace Descent.Json
open Grammar (literal skipped)

def blank : Grammar :=
  skipped (.choice [.leaf (.premade .whitespace), .leaf .succeed])

def keyword (word : String) (v : Value) : Grammar :=
  .wrap (.map fun _ => v) (literal word)

def separated (item : Grammar) : Grammar :=
  .choice [.sequence [item, .wrap .many (.sequence [skipped (literal ","), item])], blank]

def listOf (value : Grammar) : Grammar :=
  .wrap (.mapAll fun items => [.list items])
    (.between (literal "[") (separated value) (literal "]"))

def pairs : List Value → List (String × Value)
  | .string key :: v :: rest => (key, v) :: pairs rest
  | _ => []

def member (value : Grammar) : Grammar :=
  .sequence [.between blank (.leaf (.premade .jsonString)) blank, skipped (literal ":"), value]

def objectOf (value : Grammar) : Grammar :=
  .wrap (.mapAll fun values => [.ofMembers (pairs values)])
    (.between (literal "\x7b") (separated (member value)) (literal "\x7d"))

def valueOf (value : Grammar) : Grammar :=
  .between blank
    (.choice [keyword "true" (.bool true), keyword "false" (.bool false), keyword "null" .null,
      .leaf (.premade .jsonNumber), .leaf (.premade .jsonString), listOf value, objectOf value])
    blank

def value : Grammar :=
  .recursive "value" (valueOf (.ref "value"))

inductive DecodeError where
  | parse (e : ParseError)
  | notOneValue (produced : Nat)
  deriving DecidableEq, Repr

def single : List Value → Except DecodeError Value
  | [v] => .ok v
  | values => .error (.notOneValue values.length)

def decode (input : Text) : Run (Except DecodeError Value) := do
  match ← parseAll value.parser input with
  | .error e => pure (.error (.parse e))
  | .ok values => pure (single values)

end Descent.Json
