import Mathlib.Data.Nat.Digits.Defs
import Descent.Proofs.Numeral
/-!
Whole numbers of 64 bits in four bases. What is read is the longest run of digits, and what decides is its
exact value: where 64 bits hold it, it is produced, and where they do not, there is no match. The checks
of the single steps make no difference to this, and neither do leading zeros.
-/
namespace Descent.Numeral
open Descent.Parser (Computes Yields one choice many1 literal)
open Text (Apart)

inductive Radix where
  | binary
  | octal
  | decimal
  | hex
  deriving DecidableEq, Repr

namespace Radix

def base : Radix → Nat
  | .binary => 2
  | .octal => 8
  | .decimal => 10
  | .hex => 16

def reader : Radix → Parser UInt64
  | .binary => Numeral.binary
  | .octal => Numeral.octal
  | .decimal => Numeral.int
  | .hex => Numeral.hex

def digits : Radix → Parser Nat
  | .binary => many1 (digitOf (decimals.take 2))
  | .octal => many1 (digitOf (decimals.take 8))
  | .decimal => canonicalDigits
  | .hex => many1 hexDigit

def isDigit (r : Radix) (c : Char) : Bool :=
  (digitValue? r.base c).isSome

def taken : Radix → Text → Text
  | .decimal, '0' :: _ => ['0']
  | r, input => input.takeWhile r.isDigit

def value (r : Radix) (t : Text) : Nat :=
  Nat.ofDigits r.base (t.filterMap (digitValue? r.base)).reverse

theorem valueDigits (r : Radix) (t : Text) :
    valueOf r.base (t.filterMap (digitValue? r.base)) = r.value t := by
  rw [value, Nat.ofDigits_eq_foldr, List.foldr_reverse, valueOf]
  congr 1
  funext value digit
  rw [Nat.cast_id, Nat.add_comm, Nat.mul_comm]

theorem bounds (r : Radix) : 1 < r.base ∧ r.base ≤ 16 := by
  cases r <;> decide

theorem valueWritten (r : Radix) (n : Nat) : r.value (Nat.toDigits r.base n) = n := by
  rw [← valueDigits, valueToDigits r.bounds.1 r.bounds.2]

theorem takenBegins (r : Radix) (input : Text) : r.taken input <+: input := by
  unfold taken
  split
  · exact ⟨_, rfl⟩
  · exact List.takeWhile_prefix _

def ahead (r : Radix) (input : Text) : Option (Match UInt64) :=
  if r.taken input = [] ∨ wordBound ≤ r.value (r.taken input) then none
  else some ⟨input.drop (r.taken input).length, [UInt64.ofNat (r.value (r.taken input))]⟩

def digitsAhead (r : Radix) (input : Text) : Option (Match Nat) :=
  if r.taken input = [] then none
  else some ⟨input.drop (r.taken input).length, (r.taken input).filterMap (digitValue? r.base)⟩

theorem wordComputes {r : Radix} {p : Parser Nat} (digits : p.Computes r.digitsAhead) :
    (word r.base p).Computes r.ahead := by
  have positive : 0 < r.base := Nat.lt_of_succ_lt r.bounds.1
  have room : 0 < wordBound := by decide
  refine Parser.computesEq (Parser.mapComputes (boundedComputes positive room digits)) fun input => ?_
  unfold digitsAhead ahead
  by_cases none : r.taken input = []
  · simp [none]
  · simp only [if_neg none, Option.bind_some, valueDigits]
    by_cases fits : r.value (r.taken input) < wordBound
    · rw [if_pos fits, if_neg (not_or.mpr ⟨none, Nat.not_le.mpr fits⟩)]
      rfl
    · rw [if_neg fits, if_pos (.inr (Nat.le_of_not_lt fits))]
      rfl

theorem takenRun {r : Radix} {input : Text} (other : r = .decimal → ∀ rest, input ≠ '0' :: rest) :
    r.taken input = input.takeWhile r.isDigit := by
  unfold taken
  split
  · exact absurd rfl (other rfl _)
  · rfl

theorem dropRun (p : Char → Bool) (input : Text) :
    input.drop (input.takeWhile p).length = input.dropWhile p := by
  have splits := List.takeWhile_append_dropWhile (p := p) (l := input)
  calc input.drop (input.takeWhile p).length
      = (input.takeWhile p ++ input.dropWhile p).drop (input.takeWhile p).length := by rw [splits]
    _ = input.dropWhile p := List.drop_left

theorem runComputes {r : Radix} {digit : Parser Nat} (others : r ≠ .decimal)
    (each : digit.Computes (one (digitValue? r.base))) : (many1 digit).Computes r.digitsAhead := by
  refine Parser.computesEq (Parser.many1OneComputes each) fun input => ?_
  have run : r.taken input = input.takeWhile r.isDigit := takenRun fun same => absurd same others
  unfold digitsAhead
  rw [run, dropRun]
  rfl

theorem canonicalComputes : canonicalDigits.Computes Radix.decimal.digitsAhead := by
  refine Parser.computesEq canonicalDigitsComputes fun input => ?_
  cases input with
  | nil => rfl
  | cons c rest =>
    by_cases zero : c = '0'
    · subst zero
      rfl
    · have longest : Radix.decimal.taken (c :: rest) = (c :: rest).takeWhile Char.isDigit := by
        rw [takenRun fun _ after same => zero (List.cons.inj same).1, ← digitIsSome]
        rfl
      have values := filterDigits (Text.takeWhileInside Char.isDigit (c :: rest))
      rw [wholeCons zero, run, digitsAhead, longest, dropRun, base, values]
      split <;> rfl

def letters : Text :=
  ['a', 'b', 'c', 'd', 'e', 'f', 'A', 'B', 'C', 'D', 'E', 'F']

theorem letterValues : ∀ c ∈ letters, digitValue? 16 c = some (letterValue c.toString) := by
  have values : letters.all (fun c => digitValue? 16 c == some (letterValue c.toString)) = true := rfl
  exact fun c inside => eq_of_beq (List.all_eq_true.mp values c inside)

theorem hexLettersComputes : (choice (hexLetters.map literal)).Computes
    (one fun c => if c ∈ letters then some c.toString else none) :=
  Parser.literalsComputes letters

theorem hexFigure (c : Char) : digitValue? 16 c =
    (digitValue? 10 c).or (if c ∈ letters then digitValue? 16 c else none) := by
  have figures : ∀ v < 10, digitValue? 10 (Char.ofNat (48 + v)) = some v ∧
      digitValue? 16 (Char.ofNat (48 + v)) = some v := by decide
  have among : ∀ v < 16, 10 ≤ v → Char.ofNat (87 + v) ∈ letters ∧ Char.ofNat (55 + v) ∈ letters := by
    decide
  cases decimal : digitValue? 10 c with
  | some v =>
    rcases digitWritten decimal with ⟨few, rfl⟩ | ⟨many, -⟩
    · exact (figures v few).2
    · exact absurd (digitSmall decimal) (Nat.not_lt.mpr many)
  | none =>
    rw [Option.none_or]
    split
    · rfl
    · rename_i outside
      rw [Option.eq_none_iff_forall_ne_some]
      intro v hex
      rcases digitWritten hex with ⟨few, rfl⟩ | ⟨many, rfl | rfl⟩
      · cases decimal.symm.trans (figures v few).1
      · exact outside (among v (digitSmall hex) many).1
      · exact outside (among v (digitSmall hex) many).2

theorem hexDigitComputes : hexDigit.Computes (one (digitValue? 16)) := by
  refine Parser.computesEq (Parser.choiceComputes decimalDigitComputes
    (Parser.onlyComputes (Parser.mapComputes hexLettersComputes))) fun input => ?_
  cases input with
  | nil => rfl
  | cons c rest =>
    simp only [one]
    rw [hexFigure]
    by_cases letter : c ∈ letters
    · cases digitValue? 10 c <;> simp [letter, letterValues c letter]
    · cases digitValue? 10 c <;> simp [letter]

theorem digitsComputes (r : Radix) : r.digits.Computes r.digitsAhead := by
  cases r with
  | decimal => exact canonicalComputes
  | binary =>
    have digit : (digitOf (decimals.take 2)).Computes (one (digitValue? 2)) :=
      digitOfComputes [('0', 0), ('1', 1)] (by decide) fun _ _ => digitFigure (by decide)
    exact runComputes (by decide) digit
  | octal =>
    have digit : (digitOf (decimals.take 8)).Computes (one (digitValue? 8)) :=
      digitOfComputes [('0', 0), ('1', 1), ('2', 2), ('3', 3), ('4', 4), ('5', 5), ('6', 6), ('7', 7)]
        (by decide) fun _ _ => digitFigure (by decide)
    exact runComputes (by decide) digit
  | hex =>
    exact runComputes (by decide) hexDigitComputes

theorem readerWord (r : Radix) : r.reader = word r.base r.digits := by
  cases r <;> rfl

theorem readerComputes (r : Radix) : r.reader.Computes r.ahead :=
  r.readerWord ▸ wordComputes r.digitsComputes

theorem aheadSome {r : Radix} {input : Text} {m : Match UInt64} (found : r.ahead input = some m) :
    input = r.taken input ++ m.rest ∧
      ∃ n : UInt64, m.produced = [n] ∧ n.toNat = r.value (r.taken input) := by
  unfold ahead at found
  split at found
  · contradiction
  · rename_i fits
    cases found
    have small : r.value (r.taken input) < wordBound := Nat.lt_of_not_le fun large => fits (.inr large)
    refine ⟨?_, _, rfl, UInt64.toNat_ofNat_of_lt' small⟩
    exact (List.prefix_iff_eq_append.mp (r.takenBegins input)).symm

theorem aheadNone {r : Radix} {input : Text} :
    r.ahead input = none ↔ r.taken input = [] ∨ 2 ^ 64 ≤ r.value (r.taken input) := by
  have bound : wordBound = 2 ^ 64 := rfl
  rw [ahead, bound]
  split
  · rename_i unfit
    exact iff_of_true rfl unfit
  · rename_i fits
    exact iff_of_false (Option.some_ne_none _) fits

theorem aheadWritten {r : Radix} {t rest : Text} (full : t ≠ []) (small : r.value t < 2 ^ 64)
    (read : r.taken (t ++ rest) = t) :
    ∃ n : UInt64, n.toNat = r.value t ∧ r.ahead (t ++ rest) = some ⟨rest, [n]⟩ := by
  have fits : ¬ (t = [] ∨ wordBound ≤ r.value t) := not_or.mpr ⟨full, Nat.not_le.mpr small⟩
  refine ⟨_, UInt64.toNat_ofNat_of_lt' small, ?_⟩
  rw [ahead, read, if_neg fits, List.drop_left]

theorem takenWritten (r : Radix) (n : Nat) {rest : Text} (stop : Apart r.isDigit rest) :
    r.taken (Nat.toDigits r.base n ++ rest) = Nat.toDigits r.base n := by
  have inside : ∀ c ∈ Nat.toDigits r.base n, r.isDigit c = true :=
    toDigitsDigit r.bounds.1 r.bounds.2 n
  by_cases zero : r = .decimal ∧ n = 0
  · obtain ⟨rfl, rfl⟩ := zero
    rfl
  · rw [takenRun, Text.takeWhileAppend inside stop]
    rintro rfl after same
    have positive : 0 < n := Nat.pos_of_ne_zero fun none => zero ⟨rfl, none⟩
    have first := toDigitsHead positive
    cases written : Nat.toDigits 10 n with
    | nil => exact Nat.toDigits_ne_nil written
    | cons c t =>
      have same : Nat.toDigits 10 n ++ rest = '0' :: after := same
      rw [written] at first same
      exact first (congrArg some (List.cons.inj same).1)

/-- A reader takes the digits of one number, and it does not match exactly where there is none or their
exact value is no word of 64 bits; what is produced is that value. A number below the bound is read from
its digits in the base, whatever follows that is no digit. But for decimal, they may have leading zeros
and letters of either case. -/
theorem wordsAreReadExactly (r : Radix) :
    (∀ input, ∃ found, r.reader.Yields input found ∧
      (found = none ↔ r.taken input = [] ∨ 2 ^ 64 ≤ r.value (r.taken input)) ∧
      ∀ m, found = some m → input = r.taken input ++ m.rest ∧
        ∃ n : UInt64, m.produced = [n] ∧ n.toNat = r.value (r.taken input)) ∧
    (∀ n < 2 ^ 64, ∀ rest, Apart r.isDigit rest → ∃ w : UInt64, w.toNat = n ∧
      r.reader.Yields (Nat.toDigits r.base n ++ rest) (some ⟨rest, [w]⟩)) ∧
    (r ≠ .decimal → ∀ t rest, t ≠ [] → (∀ c ∈ t, r.isDigit c = true) → r.value t < 2 ^ 64 →
      Apart r.isDigit rest → ∃ w : UInt64, w.toNat = r.value t ∧
        r.reader.Yields (t ++ rest) (some ⟨rest, [w]⟩)) := by
  have computes := r.readerComputes
  refine ⟨fun input => ⟨_, computes input, aheadNone, fun m found => aheadSome found⟩, ?_, ?_⟩
  · intro n small rest stop
    have value := r.valueWritten n
    obtain ⟨w, same, found⟩ :=
      aheadWritten Nat.toDigits_ne_nil (value.symm ▸ small) (r.takenWritten n stop)
    exact ⟨w, same.trans value, found ▸ computes _⟩
  · intro other t rest full inside small stop
    have read : r.taken (t ++ rest) = t := by
      rw [takenRun fun same => absurd same other, Text.takeWhileAppend inside stop]
    obtain ⟨w, same, found⟩ := aheadWritten full small read
    exact ⟨w, same, found ▸ computes _⟩

theorem greatestWordReadExactly :
    let written := "00ffFFffffFFFFffff".toList
    (∀ c ∈ written, Radix.hex.isDigit c = true) ∧ Radix.hex.value written = 2 ^ 64 - 1 ∧
      Apart Radix.hex.isDigit ['g'] ∧ ∃ w : UInt64, w.toNat = 2 ^ 64 - 1 ∧
        Numeral.hex.Yields (written ++ ['g']) (some ⟨['g'], [w]⟩) := by
  intro written
  have inside : ∀ c ∈ written, Radix.hex.isDigit c = true := List.all_eq_true.mp rfl
  have value : Radix.hex.value written = 2 ^ 64 - 1 := by decide +kernel
  have stop : Apart Radix.hex.isDigit ['g'] := Text.apartCons.mpr rfl
  obtain ⟨-, -, read⟩ := wordsAreReadExactly .hex
  obtain ⟨w, same, found⟩ :=
    read (by decide) written ['g'] (List.cons_ne_nil _ _) inside (by omega) stop
  exact ⟨inside, value, stop, w, same.trans value, found⟩

end Radix
end Descent.Numeral
