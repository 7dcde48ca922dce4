/-!
What a journal records: the spans of labelled parsers with how each ended, the definitions of cells
with their handle counts, the failures to match a whole input, and each filling of a template.
-/
namespace Descent

inductive Event where
  | enter (label : String)
  | exit (label : String)
  | matched (consumed produced : Nat)
  | unmatched (remaining : Nat)
  | defined (handles : Nat)
  | rejected (inputLength : Nat)
  | trailing (offset remaining : Nat)
  | filling (bindings : Nat)
  deriving DecidableEq, Repr

abbrev Journal := List Event

end Descent
