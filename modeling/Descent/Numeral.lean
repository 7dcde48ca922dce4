import Descent.Parser.Combinator
/-!
Whole numbers written in a base. The digits are read from the most significant on, and a number
that reaches the bound of its reader is no match, so nothing wraps.
-/
namespace Descent.Numeral
open Descent.Parser (choice sequence many many1 map fold? literal)

def decimals : List (String × Nat) :=
  [("0", 0), ("1", 1), ("2", 2), ("3", 3), ("4", 4), ("5", 5), ("6", 6), ("7", 7), ("8", 8), ("9", 9)]

def hexLetters : List String :=
  ["a", "b", "c", "d", "e", "f", "A", "B", "C", "D", "E", "F"]

def digitOf (written : List (String × Nat)) : Parser Nat :=
  choice (written.map fun d => map (fun _ => d.2) (literal d.1))

def decimalDigit : Parser Nat :=
  digitOf decimals

/-- In both cases the low bits of the letters count from one. -/
def letterValue (letter : String) : Nat :=
  letter.toUTF8.data[0]?.elim 0 fun b => (9 + (b &&& 0xF)).toNat

def hexDigit : Parser Nat :=
  choice [decimalDigit, map letterValue (choice (hexLetters.map literal))]

def canonicalDigits : Parser Nat :=
  choice [sequence [digitOf (decimals.drop 1), many decimalDigit], digitOf (decimals.take 1)]

def valueOf (base : Nat) (digits : List Nat) : Nat :=
  digits.foldl (fun value digit => value * base + digit) 0

def checked (bound n : Nat) : Option Nat :=
  if n < bound then some n else none

def place (base bound digit value : Nat) : Option Nat := do
  let shifted ← checked bound (value * base)
  checked bound (shifted + digit)

def bounded (base bound : Nat) : Parser Nat → Parser Nat :=
  fold? (place base bound) 0

def wordBound : Nat := 1 <<< 64

def word (base : Nat) (digits : Parser Nat) : Parser UInt64 :=
  map UInt64.ofNat (bounded base wordBound digits)

def int : Parser UInt64 :=
  word 10 canonicalDigits

def binary : Parser UInt64 :=
  word 2 (many1 (digitOf (decimals.take 2)))

def octal : Parser UInt64 :=
  word 8 (many1 (digitOf (decimals.take 8)))

def hex : Parser UInt64 :=
  word 16 (many1 hexDigit)

def digitValue? (base : Nat) (c : Char) : Option Nat :=
  let value? :=
    if '0' ≤ c ∧ c ≤ '9' then some (c.toNat - '0'.toNat)
    else if 'a' ≤ c ∧ c ≤ 'z' then some (c.toNat - 'a'.toNat + 10)
    else if 'A' ≤ c ∧ c ≤ 'Z' then some (c.toNat - 'A'.toNat + 10)
    else none
  value?.filter (· < base)

end Descent.Numeral
