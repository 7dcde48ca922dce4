import Descent.Proofs.Json.Number
/-!
Whole numbers of any size, written in decimal as they usually are. Each is read as a whole number of
64 bits if it is one, and as the nearest float otherwise. A zero with a sign is a float, for only a
float keeps the sign.
-/
namespace Descent
open Numeral (Canonical decimal wordBound)

namespace Json.Number
open Descent.Parser (Yields)
open FloatLiteral (numeric)
open Text (Apart)

variable {rest : Text}

theorem finiteMatchWord {m : Nat} (negative : Bool) (small : m < wordBound) (rest : Text) :
    finiteMatch rest (Binary64.ofDecimal negative m 0) =
      some ⟨rest, [.float (Binary64.ofDecimal negative m 0)]⟩ :=
  if_pos (Binary64.wholeFinite negative small)

theorem plainYields (m : Nat) (stop : Apart numeric rest) :
    parser.Yields (Nat.toDigits 10 m ++ rest) (if m < wordBound then
      some ⟨rest, [.unsigned (UInt64.ofNat m)]⟩
      else finiteMatch rest (Binary64.ofDecimal false m 0)) := by
  have ahead := aheadWhole false (Numeral.canonicalToDigits m) stop
  rw [Numeral.decimalToDigits] at ahead
  exact ahead ▸ parserComputes _

theorem minusYields (m : Nat) (stop : Apart numeric rest) :
    parser.Yields ('-' :: (Nat.toDigits 10 m ++ rest)) (if 0 < m ∧ m ≤ negativeBound then
      some ⟨rest, [.signed (Int64.ofInt (-(m : Int)))]⟩
      else finiteMatch rest (Binary64.ofDecimal true m 0)) := by
  have ahead := aheadWhole true (Numeral.canonicalToDigits m) stop
  rw [Numeral.decimalToDigits] at ahead
  have word : wordBound = 2 * negativeBound := rfl
  have same : (if m < wordBound then some ⟨rest, [negate (UInt64.ofNat m)]⟩
      else finiteMatch rest (Binary64.ofDecimal true m 0)) = if 0 < m ∧ m ≤ negativeBound then
        some ⟨rest, [.signed (Int64.ofInt (-(m : Int)))]⟩
        else finiteMatch rest (Binary64.ofDecimal true m 0) := by
    by_cases small : m < wordBound
    · rw [if_pos small, negateWord, wordToNat small, finiteMatchWord true small]
      split <;> rfl
    · rw [if_neg small, if_neg (by omega)]
  exact (ahead.trans same) ▸ parserComputes _

theorem denotesNumber {s : Spelling} {v : Value} (denotes : s.Denotes v) : v ≠ .null := by
  rintro rfl
  cases denotes

/-- A whole number of any size is read as itself where 64 bits hold it, and else as the float nearest
to it, with the sign also where it is zero; it is no match exactly where that float is infinite. A
float is the same whether the magnitude is converted and then negated or the digits are. No text is
read as null. -/
theorem integersReadExactlyOrNearest (m : Nat) {rest : Text} (stop : Apart numeric rest) :
    (m < 2 ^ 64 → ∃ n : UInt64, n.toNat = m ∧
      parser.Yields (Nat.toDigits 10 m ++ rest) (some ⟨rest, [.unsigned n]⟩)) ∧
    (0 < m ∧ m ≤ 2 ^ 63 → ∃ n : Int64, n.toInt = -m ∧
      parser.Yields ('-' :: (Nat.toDigits 10 m ++ rest)) (some ⟨rest, [.signed n]⟩)) ∧
    (2 ^ 64 ≤ m → ∃ x, Binary64.Rounds false m x ∧
      parser.Yields (Nat.toDigits 10 m ++ rest)
        (if x.isFinite then some ⟨rest, [.float x]⟩ else none)) ∧
    (m = 0 ∨ 2 ^ 63 < m → ∃ x, Binary64.Rounds true m x ∧
      parser.Yields ('-' :: (Nat.toDigits 10 m ++ rest))
        (if x.isFinite then some ⟨rest, [.float x]⟩ else none)) ∧
    (m < 2 ^ 64 → large.Yields ('-' :: (Nat.toDigits 10 m ++ rest))
      (some ⟨rest, [.float (Binary64.ofNat m).negated]⟩)) ∧
    ∀ text found, parser.Yields text (some found) → .null ∉ found.produced := by
  have bound : wordBound = 2 ^ 64 := rfl
  have below : negativeBound = 2 ^ 63 := rfl
  have plain := plainYields m stop
  have minus := minusYields m stop
  rw [bound] at plain
  rw [below] at minus
  refine ⟨fun small => ?_, fun signed => ?_, fun beyond => ?_, fun beyond => ?_, fun small => ?_, ?_⟩
  · rw [if_pos small] at plain
    exact ⟨UInt64.ofNat m, wordToNat small, plain⟩
  · rw [if_pos signed] at minus
    exact ⟨Int64.ofInt (-m), Int64.toInt_ofInt_of_le (by omega) (by omega), minus⟩
  · rw [if_neg (Nat.not_lt.mpr beyond)] at plain
    exact ⟨_, Binary64.wholeRounds false m, plain⟩
  · rw [if_neg (by omega)] at minus
    exact ⟨_, Binary64.wholeRounds true m, minus⟩
  · obtain ⟨digit, -, -⟩ := FloatLiteral.apartNumeric stop
    have canonical := Numeral.canonicalToDigits m
    have digits := (largeAheadMatch true canonical rest).trans (digitsAheadMatch true canonical digit)
    rw [Numeral.decimalToDigits, finiteMatchWord true small, ← Binary64.negatedWhole] at digits
    exact digits ▸ largeComputes _
  · intro text found matched null
    obtain ⟨w, v, -, produced, s, -, -, denotes⟩ :=
      aheadSpells (Except.ok.inj ((parserComputes text).symm.trans matched))
    rw [produced, List.mem_singleton] at null
    exact denotesNumber denotes null.symm

theorem zeroKeepsItsSign : Apart numeric [','] ∧
    (∃ n : UInt64, n.toNat = 0 ∧ parser.Yields ['0', ','] (some ⟨[','], [.unsigned n]⟩)) ∧
    ∃ x, Binary64.Rounds true (0 : Nat) x ∧
      parser.Yields ['-', '0', ','] (if x.isFinite then some ⟨[','], [.float x]⟩ else none) := by
  have stop : Apart numeric [','] := Text.apartCons.mpr rfl
  obtain ⟨unsigned, -, -, signed, -⟩ := integersReadExactlyOrNearest 0 stop
  exact ⟨stop, unsigned (by decide), signed (.inl rfl)⟩

end Json.Number
end Descent
