import Descent.Numeral
/-!
Strings of JSON texts. Escapes that name a UTF-16 unit and follow each other are decoded together, so
that two of them may make up one scalar; a surrogate without its partner makes the string no match.
-/
namespace Descent.Json.Quoted
open Descent.Parser (choice sequence many many1 map mapAll mapAll? fold notAhead skip between anyChar literal)

def hexDigit? : List Char → Option (List Nat) :=
  List.mapM (Numeral.digitValue? 16)

def hexDigit : Parser Nat :=
  mapAll? hexDigit? anyChar

def codeUnit : Parser Nat :=
  sequence [skip (literal "\\u"),
    fold (fun digit unit => unit * 16 + digit) 0 (sequence (List.replicate 4 hexDigit))]

def isHighSurrogate (unit : Nat) : Bool :=
  decide (0xD800 ≤ unit ∧ unit < 0xDC00)

def isLowSurrogate (unit : Nat) : Bool :=
  decide (0xDC00 ≤ unit ∧ unit < 0xE000)

def combine (high low : Nat) : Char :=
  Char.ofNat (0x10000 + (high - 0xD800) * 0x400 + (low - 0xDC00))

def decode? : List Nat → Option (List Char)
  | [] => some []
  | unit :: units =>
    if isLowSurrogate unit then none
    else if isHighSurrogate unit then
      match units with
      | [] => none
      | low :: rest =>
        if isLowSurrogate low then (decode? rest).map (combine unit low :: ·) else none
    else (decode? units).map (Char.ofNat unit :: ·)

def unicode : Parser Char :=
  mapAll? decode? (many1 codeUnit)

def simpleEscapes : List (String × Char) :=
  [("\"", '"'), ("\\", '\\'), ("/", '/'), ("b", '\x08'), ("f", '\x0c'), ("n", '\n'), ("r", '\r'),
   ("t", '\t')]

def simple : Parser Char :=
  sequence [skip (literal "\\"),
    choice (simpleEscapes.map fun e => map (fun _ => e.2) (literal e.1))]

def forbidden : List Char :=
  ['"', '\\'] ++ (List.range 0x20).map Char.ofNat

def plain : Parser Char :=
  sequence [notAhead (choice (forbidden.map fun c => literal c.toString)), anyChar]

def content : Parser Char :=
  many (choice [unicode, simple, plain])

def parser : Parser String :=
  mapAll (fun cs => [String.ofList cs]) (between (literal "\"") content (literal "\""))

end Descent.Json.Quoted
