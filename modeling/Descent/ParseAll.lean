import Descent.Parser.Basic
/-!
Matching a whole input. What is no match, or leaves some of the input, is an error that says where,
and the journal has it too.
-/
namespace Descent

inductive ParseError where
  | noMatch
  | trailingInput (offset remaining : Nat)
  deriving DecidableEq, Repr

def ParseError.message : ParseError → String
  | .noMatch => "no match at the start of the input"
  | .trailingInput offset remaining =>
    "unconsumed input: " ++ remaining.repr ++ " bytes starting at byte " ++ offset.repr

def parseAll {α : Type} (p : Parser α) (input : Text) : Run (Except ParseError (List α)) := do
  match ← p input with
  | none =>
    Run.record (.rejected input.byteLength)
    pure (.error .noMatch)
  | some m =>
    if m.rest.isEmpty then
      pure (.ok m.produced)
    else
      let remaining := m.rest.byteLength
      let offset ← Run.difference input.byteLength remaining
      Run.record (.trailing offset remaining)
      pure (.error (.trailingInput offset remaining))

end Descent
