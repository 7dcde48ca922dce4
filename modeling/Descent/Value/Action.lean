import Descent.Value.Basic
import Descent.Numeral
/-!
Functions on values for the places of a grammar that take one: on each value, on all values at
once, on all values with a rejection, and on a value and what the values before it were reduced to,
without and with a rejection.
-/
namespace Descent.Value

def toText (v : Value) : Value :=
  .string v.text

def upperAscii (v : Value) : Value :=
  .string (v.text.map Char.toUpper)

def code : Value → Value
  | .char c => .unsigned (UInt64.ofNat c.toNat)
  | v => v

def size (v : Value) : Value :=
  .unsigned (UInt64.ofNat v.text.utf8ByteSize)

def wrapped (v : Value) : Value :=
  .list [v]

def count (values : List Value) : List Value :=
  [.unsigned (UInt64.ofNat values.length)]

def concat (values : List Value) : List Value :=
  [.string (textOfItems values)]

def asList (values : List Value) : List Value :=
  [.list values]

def doubled (values : List Value) : List Value :=
  values.flatMap fun v => [v, v]

def without (v : Value) (values : List Value) : List Value :=
  values.filter fun w => !(w == v)

def nonempty? (values : List Value) : Option (List Value) :=
  if values.isEmpty then none else some values

def atMost? (n : Nat) (values : List Value) : Option (List Value) :=
  if values.length ≤ n then some values else none

def noneOf? (v : Value) (values : List Value) : Option (List Value) :=
  if values.any (· == v) then none else some values

def neighboursEqual : List Value → Bool
  | v :: w :: rest => v == w && neighboursEqual (w :: rest)
  | _ => true

def same? (values : List Value) : Option (List Value) :=
  if neighboursEqual values then some values else none

def halve? (values : List Value) : Option (List Value) :=
  if values.length % 2 = 0 then some (values.take (values.length / 2)) else none

def append (v reduced : Value) : Value :=
  .string (reduced.text ++ v.text)

def prepend (v reduced : Value) : Value :=
  .string (v.text ++ reduced.text)

def push (v : Value) : Value → Value
  | .list items => .list (items ++ [v])
  | reduced => .list [reduced, v]

def last (v _reduced : Value) : Value :=
  v

def tally (_v : Value) : Value → Value
  | .unsigned n => .unsigned (n + 1)
  | _ => .unsigned 1

def addend? : Value → Option Nat
  | .unsigned n => some n.toNat
  | .char c => Numeral.digitValue? 10 c
  | _ => none

def word? (n : Nat) : Option Value :=
  if n < Numeral.wordBound then some (.unsigned (UInt64.ofNat n)) else none

def sum? (limit : Nat) (v : Value) : Value → Option Value
  | .unsigned total => do
    let n ← addend? v
    if total.toNat + n ≤ limit then word? (total.toNat + n) else none
  | _ => none

def radix? (base : Nat) : Value → Value → Option Value
  | .char c, .unsigned total => do
    let digit ← Numeral.digitValue? base c
    word? (total.toNat * base + digit)
  | _, _ => none

def until? (stop v reduced : Value) : Option Value :=
  if v == stop then none else some (push v reduced)

end Descent.Value
