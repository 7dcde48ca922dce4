import Descent.Binary64
import Descent.Numeral
/-!
Decimal texts: digits with a point before, among or behind them, a sign in front and an exponent at the
end, where all but one digit may be absent. Each stands for the double nearest to its exact value, however
long it is. No other text is a decimal, and the names of infinity are none.
-/
namespace Descent.Decimal

def unsigned : Text → Bool × Text
  | '-' :: t => (true, t)
  | '+' :: t => (false, t)
  | t => (false, t)

def natural (digits : Text) : Nat :=
  Numeral.valueOf 10 (digits.filterMap (Numeral.digitValue? 10))

def fraction : Text → Text × Text
  | '.' :: t => (t.takeWhile Char.isDigit, t.dropWhile Char.isDigit)
  | t => ([], t)

def exponent? : Text → Option Int
  | [] => some 0
  | mark :: t =>
    let digits := (unsigned t).2
    if (mark = 'e' ∨ mark = 'E') ∧ digits ≠ [] ∧ digits.all Char.isDigit then
      some (if (unsigned t).1 then -(natural digits) else natural digits)
    else none

def toBinary64? (t : Text) : Option Binary64 :=
  let unsigned := unsigned t
  let integer := unsigned.2.takeWhile Char.isDigit
  let places := fraction (unsigned.2.dropWhile Char.isDigit)
  if integer = [] ∧ places.1 = [] then none
  else (exponent? places.2).map fun exponent =>
    Binary64.ofDecimal unsigned.1 (natural (integer ++ places.1)) (exponent - places.1.length)

end Descent.Decimal
