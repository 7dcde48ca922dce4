/-!
Double precision numbers as their 64 bits, and the nearest of them to an exact ratio. A ratio is
rounded once: the unit of its last place is fixed first, then the number of units, to the nearest
and on a tie to the even one. Since consecutive magnitudes have consecutive bit patterns, a carry
into the next power of two needs no case of its own, and all beyond the greatest finite number is
infinity.
-/
namespace Descent

structure Binary64 where
  bits : UInt64
  deriving DecidableEq, Repr

namespace Binary64

def fractionBits : Nat := 52

def leastExponent : Nat := 1074

def infinityMagnitude : Nat := 2047 <<< fractionBits

def signBit : Nat := 1 <<< 63

def ofMagnitude (negative : Bool) (magnitude : Nat) : Binary64 :=
  ⟨UInt64.ofNat (if negative then signBit + magnitude else magnitude)⟩

def magnitude (x : Binary64) : Nat :=
  x.bits.toNat % signBit

def isNegative (x : Binary64) : Bool :=
  decide (signBit ≤ x.bits.toNat)

def isFinite (x : Binary64) : Bool :=
  decide (x.magnitude < infinityMagnitude)

def isNan (x : Binary64) : Bool :=
  decide (infinityMagnitude < x.magnitude)

def same (x y : Binary64) : Bool :=
  !x.isNan && !y.isNan && (x.bits == y.bits || (x.magnitude == 0 && y.magnitude == 0))

def roundRatio (numerator denominator : Nat) : Nat :=
  let quotient := numerator / denominator
  let twice := 2 * (numerator % denominator)
  if denominator < twice ∨ (denominator = twice ∧ quotient % 2 = 1) then quotient + 1
  else quotient

def floorLog (numerator denominator : Nat) : Int :=
  let estimate : Int := (numerator.log2 : Int) - (denominator.log2 : Int)
  if denominator <<< estimate.toNat ≤ numerator <<< (-estimate).toNat then estimate
  else estimate - 1

def unitExponent (numerator denominator : Nat) : Nat :=
  (floorLog numerator denominator - fractionBits + leastExponent).toNat

/-- The magnitude nearest to the ratio. With the unit `2 ^ (e - 1074)` and `q` units it is
`e * 2 ^ 52 + q`, for the exponent field counts from one below the first normal unit. -/
def magnitudeOfRatio (numerator denominator : Nat) : Nat :=
  let e := unitExponent numerator denominator
  let units :=
    if e ≤ leastExponent then roundRatio (numerator <<< (leastExponent - e)) denominator
    else roundRatio numerator (denominator <<< (e - leastExponent))
  min (e <<< fractionBits + units) infinityMagnitude

def ofRatio (negative : Bool) (numerator denominator : Nat) : Binary64 :=
  ofMagnitude negative (if numerator = 0 then 0 else magnitudeOfRatio numerator denominator)

def ofNat (n : Nat) : Binary64 :=
  ofRatio false n 1

def negated (x : Binary64) : Binary64 :=
  ⟨x.bits ^^^ UInt64.ofNat signBit⟩

/-- Every number of at least `10 ^ 309` rounds to infinity, and every number below `10 ^ (-324)`
to zero. -/
def greatestDecade : Int := 309

def leastDecade : Int := -324

def ofDecimal (negative : Bool) (digits : Nat) (exponent : Int) : Binary64 :=
  if digits = 0 then
    ofMagnitude negative 0
  else if greatestDecade ≤ exponent then
    ofMagnitude negative infinityMagnitude
  else if (digits.log2 : Int) + 1 + exponent ≤ leastDecade then
    ofMagnitude negative 0
  else if 0 ≤ exponent then
    ofRatio negative (digits * Nat.pow 10 exponent.toNat) 1
  else
    ofRatio negative digits (Nat.pow 10 (-exponent).toNat)

end Binary64
end Descent
