import Descent.Decimal
/-!
Literals of numbers with a point or an exponent. The digits are kept as they are written up to the
one conversion of a decimal text, so the value is the number nearest to the exact decimal, and leading
zeros of the fraction count. What is out of range is infinity or zero.
-/
namespace Descent

structure FloatLiteral where
  negative : Bool
  integer : List Nat
  fraction : List Nat
  exponent : Int
  deriving DecidableEq, Repr

namespace FloatLiteral
open Descent.Parser (choice sequence many many1 map mapAll mapAll? fold skip succeed literal)
open Numeral (decimalDigit canonicalDigits bounded)

def empty : FloatLiteral :=
  ⟨false, [], [], 0⟩

def spelled (digits : List Nat) : Text :=
  if digits.isEmpty then ['0'] else digits.map Nat.digitChar

def text (l : FloatLiteral) : Text :=
  (if l.negative then ['-'] else []) ++ spelled l.integer ++ '.' :: spelled l.fraction ++
    'e' :: l.exponent.repr.toList

def value? (l : FloatLiteral) : Option Binary64 :=
  Decimal.toBinary64? l.text

inductive Part where
  | minus
  | integer (digits : List Nat)
  | fraction (digits : List Nat)
  | exponent (value : Int)
  deriving DecidableEq, Repr

def Part.setIn (l : FloatLiteral) : Part → FloatLiteral
  | .minus => {l with negative := true}
  | .integer digits => {l with integer := digits}
  | .fraction digits => {l with fraction := digits}
  | .exponent value => {l with exponent := value}

def gathered : Parser Nat → Parser (List Nat) :=
  mapAll fun digits => [digits]

def integerPart : Parser Part :=
  map .integer (gathered canonicalDigits)

def fractionPart : Parser Part :=
  map .fraction (gathered (many1 decimalDigit))

def point : Parser Part :=
  skip (literal ".")

def pointed : Parser Part :=
  choice [sequence [integerPart, point, fractionPart], sequence [integerPart, point],
    sequence [point, fractionPart]]

def exponentBound : Nat := 1 <<< 31

def exponentDigits : Parser Int :=
  map Int.ofNat (bounded 10 exponentBound (many1 decimalDigit))

def signedExponent : Parser Int :=
  choice [exponentDigits,
    map Int.neg (sequence [skip (literal "-"), exponentDigits]),
    sequence [skip (literal "+"), exponentDigits]]

def exponentPart : Parser Part :=
  sequence [skip (choice [literal "e", literal "E"]), map .exponent signedExponent]

/-- A point may stand without an exponent; digits alone need one, since they are a whole number
otherwise. -/
def unsignedParts : Parser Part :=
  choice [sequence [choice [pointed, integerPart], exponentPart], pointed]

def sign : Parser Part :=
  choice [map (fun _ => .minus) (literal "-"), succeed]

def parser : Parser FloatLiteral :=
  fold (fun part l => part.setIn l) empty (sequence [sign, unsignedParts])

def number : Parser Binary64 :=
  mapAll? (List.mapM value?) parser

end FloatLiteral
end Descent
