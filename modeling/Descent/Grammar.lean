import Descent.Blank
import Descent.Json.Number
import Descent.Json.Quoted
/-!
Grammars as data. A grammar is a leaf, a wrapper around one grammar, a way to join several, or a
binder of names; what a leaf and a wrapper do is said by a parser. Names are resolved only when the
grammar is assembled.
-/
namespace Descent

inductive Premade where
  | int
  | binary
  | octal
  | hex
  | float
  | eol
  | spaces
  | whitespace
  | jsonNumber
  | jsonString
  deriving DecidableEq, Repr

def Premade.parser : Premade → Parser Value
  | .int => Parser.map .unsigned Numeral.int
  | .binary => Parser.map .unsigned Numeral.binary
  | .octal => Parser.map .unsigned Numeral.octal
  | .hex => Parser.map .unsigned Numeral.hex
  | .float => Parser.map .float FloatLiteral.number
  | .eol => Parser.map .string Blank.eol
  | .spaces => Parser.map .string Blank.spaces
  | .whitespace => Parser.map .string Blank.whitespace
  | .jsonNumber => Json.Number.parser
  | .jsonString => Parser.map .string Json.Quoted.parser

inductive Leaf where
  | anyChar
  | literal (expected : String)
  | fail
  | succeed
  | atEnd
  | take (n : Nat)
  | premade (p : Premade)
  /-- A function of the user's, which neither writes to the journal nor stops. -/
  | custom (look : Text → Option (Match Value))

def Leaf.parser : Leaf → Parser Value
  | .anyChar => Parser.map .char Parser.anyChar
  | .literal expected => Parser.map .string (Parser.literal expected)
  | .fail => Parser.fail
  | .succeed => Parser.succeed
  | .atEnd => Parser.atEnd
  | .take n => Parser.map .string (Parser.take n)
  | .premade p => p.parser
  | .custom look => fun input => pure (look input)

inductive Wrapper where
  | many
  | many1
  | map (f : Value → Value)
  | mapAll (f : List Value → List Value)
  | mapAll? (f : List Value → Option (List Value))
  | fold (f : Value → Value → Value) (seed : Value)
  | fold? (f : Value → Value → Option Value) (seed : Value)
  | notAhead
  | skip
  | whole
  | traced (label : String)
  | times (n : Nat)

def Wrapper.parser : Wrapper → Parser Value → Parser Value
  | .many => Parser.many
  | .many1 => Parser.many1
  | .map f => Parser.map f
  | .mapAll f => Parser.mapAll f
  | .mapAll? f => Parser.mapAll? f
  | .fold f seed => Parser.fold f seed
  | .fold? f seed => Parser.fold? f seed
  | .notAhead => Parser.notAhead
  | .skip => Parser.skip
  | .whole => Parser.whole
  | .traced label => Parser.traced label
  | .times n => fun p => Parser.sequence (List.replicate n p)

def Wrapper.keeps : Wrapper → Bool
  | .times 0 => false
  | _ => true

inductive Grammar where
  | leaf (l : Leaf)
  | wrap (w : Wrapper) (body : Grammar)
  | choice (members : List Grammar)
  | sequence (members : List Grammar)
  | choiceOf (n : Nat) (member last : Grammar)
  | between (left middle right : Grammar)
  | block (start terminator escape : Grammar)
  /-- What the name refers to, or a parser that never matches if nothing bears the name. -/
  | ref (name : String)
  | recursive (name : String) (body : Grammar)
  | together (definitions : List (String × Grammar)) (body : Grammar)

namespace Grammar

def literal (expected : String) : Grammar :=
  .leaf (.literal expected)

def skipped (g : Grammar) : Grammar :=
  .wrap .skip g

end Grammar
end Descent
