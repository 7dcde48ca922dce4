import Descent.FloatLiteral
import Descent.Value.Basic
/-!
Numbers of JSON texts. A float literal is tried first, then a whole number of 64 bits, then one with
a sign, and last the digits of a whole number of any size. A number is always finite, so a literal
that rounds to infinity is none.
-/
namespace Descent.Json.Number
open Descent.Parser (choice sequence many1 map mapAll? skip succeed anyChar literal)

def finite? (xs : List Binary64) : Option (List Value) :=
  xs.mapM fun x => if x.isFinite then some (.float x) else none

def floating : Parser Value :=
  mapAll? finite? FloatLiteral.number

def plain : Parser Value :=
  map .unsigned Numeral.int

def negativeBound : Nat := 1 <<< 63

def orNull (x : Binary64) : Value :=
  if x.isFinite then .float x else .null

def negate (magnitude : UInt64) : Value :=
  let m := magnitude.toNat
  if 0 < m ∧ m ≤ negativeBound then .signed (Int64.ofInt (-(m : Int)))
  else orNull (Binary64.ofNat m).negated

def negative : Parser Value :=
  map negate (sequence [skip (literal "-"), Numeral.int])

def digit? (cs : List Char) : Option (List Char) :=
  if cs.all Char.isDigit then some cs else none

def nearest? (cs : List Char) : Option (List Value) := do
  let x ← Decimal.toBinary64? cs
  finite? [x]

def sign : Parser Char :=
  choice [map (fun _ => '-') (literal "-"), succeed]

def large : Parser Value :=
  mapAll? nearest? (sequence [sign, many1 (mapAll? digit? anyChar)])

def parser : Parser Value :=
  choice [floating, plain, negative, large]

end Descent.Json.Number
