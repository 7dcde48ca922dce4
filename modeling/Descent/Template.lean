import Descent.Blank
import Descent.Table
/-!
Templates with placeholders: a bound key between two braces on each side, where spaces and tabs may
surround the key. Everything else stands for itself, placeholders of other keys too.
-/
namespace Descent.Template
open Descent.Parser (choice sequence map skip succeed atEnd block literal)

/-- Longer keys first, so that a key is never tried before one that it begins. -/
def byLength (bindings : Table String) : List (String × String) :=
  bindings.mergeSort fun a b => decide (b.1.utf8ByteSize ≤ a.1.utf8ByteSize)

def padding : Parser String :=
  skip (choice [Blank.spaces, succeed])

def placeholder (bindings : Table String) : Parser String :=
  sequence [skip (literal "\x7b\x7b"), padding,
    choice ((byLength bindings).map fun b => map (fun _ => b.2) (literal b.1)),
    padding, skip (literal "\x7d\x7d")]

def template (bindings : Table String) : Parser String :=
  block Char.toString succeed atEnd (placeholder bindings)

def fill (source : Text) (given : List (String × String)) : Run String :=
  let bindings := Table.ofList given
  if bindings.isEmpty then
    pure (String.ofList source)
  else do
    Run.record (.filling bindings.length)
    match ← template bindings source with
    | none => pure (String.ofList source)
    | some m => pure (String.join m.produced)

end Descent.Template
