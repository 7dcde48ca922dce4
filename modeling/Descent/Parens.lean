import Descent.Blueprint
import Descent.ParseAll
import Descent.Value.Action
/-!
Balanced delimiters, where a pair may have further pairs inside.
-/
namespace Descent.Parens
open Grammar (literal)

def nested (opening closing : String) : Grammar :=
  .recursive "nested" (.block (literal opening) (literal closing) (.ref "nested"))

def matcher : Grammar :=
  .wrap (.map Value.toText) (nested "(" ")")

def scalars? (input : Text) : Run (Option (List String)) :=
  let assembled := matcher.assembled
  Run.behind assembled.journal do
    match ← parseAll assembled.parser input with
    | .error _ => pure none
    | .ok values => pure (some (values.map Value.text))

end Descent.Parens
