import Descent.Proofs.FloatLiteral
import Descent.Proofs.Rounding
/-!
From literals to doubles. The text that is converted spells the number that was read: an absent part is a
zero in it, and leading zeros of the fraction stay. Therefore the conversion is never refused, and it gives
the double that is nearest to the exact value.
-/
namespace Descent
open Numeral (digits decimal)
open Text (Apart)

namespace Decimal

theorem naturalDigits {t : Text} (inside : ∀ c ∈ t, c.isDigit = true) : natural t = decimal t := by
  rw [natural, Numeral.filterDigits inside]
  rfl

def isSign (c : Char) : Bool :=
  c == '+' || c == '-'

theorem digitNoSign {c : Char} (digit : c.isDigit = true) : isSign c = false := by
  rw [← Bool.not_eq_true]
  intro sign
  rcases Bool.or_eq_true_iff.mp sign with same | same <;> simp_all

theorem unsignedSign {sign : Option Char} {t : Text} (signs : ∀ c ∈ sign, isSign c = true)
    (bare : Apart isSign t) : unsigned (sign.toList ++ t) = (decide (sign = some '-'), t) := by
  cases sign with
  | some c =>
    rcases Bool.or_eq_true_iff.mp (signs c rfl) with same | same <;> cases eq_of_beq same <;> rfl
  | none =>
    rw [Option.toList_none, List.nil_append, unsigned]
    · rfl
    · rintro _ rfl
      exact absurd (Text.apartCons.mp bare) (by decide)
    · rintro _ rfl
      exact absurd (Text.apartCons.mp bare) (by decide)

theorem exponentText {e : Exponent} (formed : e.Formed) : exponent? e.text = some e.value := by
  obtain ⟨mark, sign, ds⟩ := e
  have signs : ∀ c ∈ sign, isSign c = true := fun c here => by
    rcases formed.sign c here with rfl | rfl <;> rfl
  have bare : Apart isSign ds := fun c first => digitNoSign (formed.digits c (List.mem_of_head? first))
  have split : unsigned (sign.toList ++ ds) = (decide (sign = some '-'), ds) := unsignedSign signs bare
  have inside : ds.all Char.isDigit = true := List.all_eq_true.mpr formed.digits
  have accepted : (mark = 'e' ∨ mark = 'E') ∧ ds ≠ [] ∧ ds.all Char.isDigit = true :=
    ⟨formed.mark, formed.full, inside⟩
  rw [Exponent.text, List.cons_append, exponent?]
  simp only [split, if_pos accepted, naturalDigits formed.digits, Exponent.value, decide_eq_true_eq]

theorem fractionWritten {f : Option Text} {rest : Text} (places : ∀ c ∈ f.getD [], c.isDigit = true)
    (digit : Apart Char.isDigit rest) (point : Apart (· == '.') rest) :
    fraction ((f.elim [] fun t => '.' :: t) ++ rest) = (f.getD [], rest) := by
  cases f with
  | some t =>
    have inside : ∀ c ∈ t, c.isDigit = true := places
    rw [Option.elim_some, List.cons_append, fraction, Text.takeWhileAppend inside digit,
      Text.dropWhileAppend inside digit]
    rfl
  | none =>
    rw [Option.elim_none, List.nil_append, fraction]
    · rfl
    · rintro _ rfl
      exact absurd (Text.apartCons.mp point) (by decide)

theorem convertDigits (negative : Bool) {t : Text} (inside : ∀ c ∈ t, c.isDigit = true) (full : t ≠ []) :
    toBinary64? ((if negative then ['-'] else []) ++ t) =
      some (Binary64.ofDecimal negative (decimal t) 0) := by
  have split : unsigned ((if negative then ['-'] else []) ++ t) = (negative, t) := by
    have bare : Apart isSign t := fun c first => digitNoSign (inside c (List.mem_of_head? first))
    cases negative with
    | true => rfl
    | false => exact @unsignedSign none t (fun _ none => by cases none) bare
  have stop : Apart Char.isDigit [] := fun _ none => by cases none
  have taken := Text.takeWhileAppend inside stop
  have left := Text.dropWhileAppend inside stop
  rw [List.append_nil] at taken left
  rw [toBinary64?]
  simp only [split, taken, left, fraction, full, false_and, if_false, exponent?, List.append_nil,
    naturalDigits inside]
  rfl

end Decimal

namespace Spelling

def significand (s : Spelling) : Nat :=
  decimal (s.integer ++ s.places)

def magnitude (s : Spelling) : ℚ :=
  s.significand * 10 ^ (s.power - s.places.length)

theorem tailApart {s : Spelling} (lenient : s.Lenient) :
    Apart Char.isDigit (s.exponent.elim [] Exponent.text) ∧
      Apart (· == '.') (s.exponent.elim [] Exponent.text) := by
  cases exponent : s.exponent with
  | none => simp [Apart]
  | some e =>
    have apart := FloatLiteral.exponentApart (lenient.exponent e exponent) []
    rwa [List.append_nil] at apart

theorem integerApart {s : Spelling} (lenient : s.Lenient) : Apart Char.isDigit
    ((s.fraction.elim [] fun t => '.' :: t) ++ s.exponent.elim [] Exponent.text) := by
  cases s.fraction with
  | none => exact (tailApart lenient).1
  | some t => exact Text.apartCons.mpr rfl

theorem bareApart {s : Spelling} (lenient : s.Lenient) : Apart Decimal.isSign
    (s.integer ++ ((s.fraction.elim [] fun t => '.' :: t) ++ s.exponent.elim [] Exponent.text)) := by
  obtain ⟨negative, integer, fraction, exponent⟩ := s
  rcases lenient.integer with canonical | ⟨none, some⟩
  · have inside := Numeral.canonicalDigit canonical
    cases integer with
    | nil => exact absurd rfl (Numeral.canonicalFull canonical)
    | cons c t => exact Text.apartCons.mpr (Decimal.digitNoSign (inside c List.mem_cons_self))
  · cases none
    cases fraction with
    | none => exact absurd rfl some
    | some f => exact Text.apartCons.mpr rfl

theorem integerDigits {s : Spelling} (lenient : s.Lenient) : ∀ c ∈ s.integer, c.isDigit = true := by
  rcases lenient.integer with canonical | ⟨none, -⟩
  · exact Numeral.canonicalDigit canonical
  · rw [none]
    exact List.forall_mem_nil _

theorem signText (s : Spelling) : s.text = (if s.negative then some '-' else none).toList ++
    (s.integer ++ ((s.fraction.elim [] fun t => '.' :: t) ++ s.exponent.elim [] Exponent.text)) := by
  unfold text
  cases s.negative <;> simp

theorem convertSpelling {s : Spelling} (lenient : s.Lenient) : Decimal.toBinary64? s.text =
    some (Binary64.ofDecimal s.negative s.significand (s.power - s.places.length)) := by
  have signs : ∀ c ∈ (if s.negative then some '-' else none), Decimal.isSign c = true := by
    cases s.negative <;> simp [Decimal.isSign]
  have sign := Decimal.unsignedSign signs (bareApart lenient)
  obtain ⟨digit, point⟩ := tailApart lenient
  have places : ∀ c ∈ s.fraction.getD [], c.isDigit = true := lenient.places
  have inside := integerDigits lenient
  have stop := integerApart lenient
  have some : ¬ (s.integer = [] ∧ s.fraction.getD [] = []) := fun nothing => by
    rcases lenient.integer with canonical | ⟨-, full⟩
    · exact Numeral.canonicalFull canonical nothing.1
    · exact full nothing.2
  have power : Decimal.exponent? (s.exponent.elim [] Exponent.text) = .some s.power := by
    unfold Spelling.power
    cases exponent : s.exponent with
    | none => rfl
    | some e => exact Decimal.exponentText (lenient.exponent e exponent)
  have whole : ∀ c ∈ s.integer ++ s.fraction.getD [], c.isDigit = true :=
    List.forall_mem_append.mpr ⟨inside, places⟩
  have negative : decide ((if s.negative then Option.some '-' else none) = Option.some '-') = s.negative := by
    cases s.negative <;> rfl
  rw [signText, Decimal.toBinary64?]
  simp only [sign, Text.takeWhileAppend inside stop, Text.dropWhileAppend inside stop,
    Decimal.fractionWritten places digit point, if_neg some, power, Decimal.naturalDigits whole, negative]
  rfl

def orZero (t : Text) : Text :=
  if t = [] then ['0'] else t

def completed (s : Spelling) : Spelling where
  negative := s.negative
  integer := orZero s.integer
  fraction := some (orZero s.places)
  exponent := some ⟨'e', if s.power < 0 then some '-' else none, Nat.toDigits 10 s.power.natAbs⟩

theorem orZeroDigits {t : Text} (inside : ∀ c ∈ t, c.isDigit = true) :
    ∀ c ∈ orZero t, c.isDigit = true := by
  unfold orZero
  split
  · exact List.all_eq_true.mp rfl
  · exact inside

theorem completedLenient {s : Spelling} (lenient : s.Lenient) : s.completed.Lenient := by
  have integer : Numeral.Canonical (orZero s.integer) := by
    unfold orZero
    split
    · exact .zero
    · rename_i some
      exact lenient.integer.resolve_right fun side => some side.1
  have digits : ∀ c ∈ Nat.toDigits 10 s.power.natAbs, c.isDigit = true := fun c here =>
    Nat.isDigit_of_mem_toDigits (by decide) (by decide) here
  refine ⟨.inl integer, orZeroDigits lenient.places, fun e here => ?_⟩
  cases here
  refine ⟨.inl rfl, fun c sign => ?_, Nat.toDigits_ne_nil, digits⟩
  dsimp only at sign
  split at sign
  · cases sign
    exact .inr rfl
  · contradiction

theorem spelledDigits {t : Text} (inside : ∀ c ∈ t, c.isDigit = true) :
    FloatLiteral.spelled (digits t) = orZero t := by
  have kept : (digits t).map Nat.digitChar = t := by
    rw [digits, List.map_map]
    exact (List.map_congr_left fun c here => Numeral.digitCharDigit (inside c here)).trans (List.map_id t)
  cases t with
  | nil => rfl
  | cons c t => exact kept

theorem reprPower (n : Int) : n.repr.toList =
    (if n < 0 then some '-' else none).toList ++ Nat.toDigits 10 n.natAbs := by
  cases n with
  | ofNat m => simp [Int.repr]
  | negSucc m => simp [Int.repr, Int.negSucc_lt_zero]

theorem completedText {s : Spelling} (lenient : s.Lenient) : s.literal.text = s.completed.text := by
  have shown : s.literal.text = (if s.negative then ['-'] else []) ++
    FloatLiteral.spelled (digits s.integer) ++ '.' :: FloatLiteral.spelled (digits s.places) ++
      'e' :: s.power.repr.toList := rfl
  rw [shown, spelledDigits (integerDigits lenient), spelledDigits lenient.places, reprPower]
  rfl

theorem completedPower (s : Spelling) : s.completed.power = s.power := by
  have value : s.completed.power = Exponent.value
    ⟨'e', if s.power < 0 then some '-' else none, Nat.toDigits 10 s.power.natAbs⟩ := rfl
  rw [value, Exponent.value, Numeral.decimalToDigits]
  by_cases below : s.power < 0
  · rw [if_pos below, if_pos rfl]
    omega
  · rw [if_neg below, if_neg (Option.some_ne_none _).symm]
    omega

theorem leadingZero (t u : Text) : decimal (orZero t ++ u) = decimal (t ++ u) := by
  unfold orZero
  split
  · rename_i none
    rw [none]
    rfl
  · rfl

theorem trailingZero (t : Text) : decimal (t ++ ['0']) = decimal t * 10 := by
  rw [decimal, Numeral.digitsAppend]
  exact Numeral.valueAppend 10 (digits t) 0

theorem completedMagnitude (s : Spelling) : s.completed.magnitude = s.magnitude := by
  have power := s.completedPower
  have places : s.completed.places = orZero s.places := rfl
  have integer : s.completed.integer = orZero s.integer := rfl
  simp only [magnitude, significand, power, places, integer, leadingZero]
  by_cases none : s.places = []
  · simp only [none, orZero, if_pos, trailingZero, List.append_nil, List.length_nil, List.length_singleton]
    push_cast
    rw [zpow_sub_one₀ (by norm_num), sub_zero]
    ring
  · rw [orZero, if_neg none]

end Spelling

namespace FloatLiteral

def value (l : FloatLiteral) : Binary64 :=
  Binary64.ofDecimal l.negative (Numeral.valueOf 10 (l.integer ++ l.fraction))
    (l.exponent - l.fraction.length)

end FloatLiteral

namespace Spelling

theorem literalValue (s : Spelling) : s.literal.value =
    Binary64.ofDecimal s.negative s.significand (s.power - s.places.length) := by
  simp only [FloatLiteral.value, literal, significand, decimal, Numeral.digitsAppend]
  simp [digits]

theorem literalRounds (s : Spelling) : Binary64.Rounds s.negative s.magnitude s.literal.value :=
  s.literalValue ▸ Binary64.ofDecimalRounds s.negative s.significand (s.power - s.places.length)

theorem literalConverts {s : Spelling} (lenient : s.Lenient) :
    s.literal.value? = some s.literal.value := by
  have converted := s.completed.literalValue ▸ convertSpelling (completedLenient lenient)
  have rounds := s.completed.literalRounds
  rw [completedMagnitude] at rounds
  have same : s.completed.literal.value = s.literal.value := Binary64.roundsUnique rounds s.literalRounds
  rw [FloatLiteral.value?, completedText lenient, converted, same]

end Spelling

namespace FloatLiteral

theorem numberComputes : number.Computes fun input =>
    (scan input).map fun found => ⟨found.2, [found.1.literal.value]⟩ := by
  refine Parser.computesEq (Parser.mapAllComputes? parserComputes) fun input => ?_
  cases found : scan input with
  | none => rfl
  | some taken =>
    obtain ⟨-, lenient, -⟩ := scanSplits found
    simp [Spelling.literalConverts lenient]

variable {input rest : Text}

theorem scanMisses (missed : scan input = none) : number.Yields input none := by
  have computed := numberComputes input
  simpa only [missed, Option.map_none] using computed

theorem scanYields {s : Spelling} (found : scan input = some (s, rest)) :
    number.Yields input (some ⟨rest, [s.literal.value]⟩) := by
  have computed := numberComputes input
  simpa only [found, Option.map_some] using computed

/-- Floats are what the scanner takes, which takes all that could belong to one number. A float is never
refused: the text that is converted spells the signed number that was read, and what is produced is the
double nearest to its exact value. -/
theorem floatsAreScanned (input : Text) :
    (scan input = none → number.Yields input none) ∧
    (∀ s rest, scan input = some (s, rest) ↔
      input = s.text ++ rest ∧ s.Lenient ∧ s.Bounded ∧ ¬ s.Integral ∧ s.EndsAt rest) ∧
    ∀ s rest, scan input = some (s, rest) → ∃ x,
      number.Yields input (some ⟨rest, [x]⟩) ∧ Binary64.Rounds s.negative s.magnitude x ∧
      parser.Yields input (some ⟨rest, [s.literal]⟩) ∧
      Decimal.toBinary64? s.literal.text = some x ∧
      ∃ d : Spelling, d.text = s.literal.text ∧ d.Lenient ∧
        d.negative = s.negative ∧ d.magnitude = s.magnitude := by
  refine ⟨scanMisses, fun s rest => scanIff, fun s rest found => ?_⟩
  obtain ⟨-, lenient, -⟩ := scanSplits found
  have literal := parserComputes input
  simp only [found, Option.map_some] at literal
  exact ⟨_, scanYields found, s.literalRounds, literal, Spelling.literalConverts lenient, s.completed,
    (Spelling.completedText lenient).symm, Spelling.completedLenient lenient, rfl, s.completedMagnitude⟩

theorem smallFloatIsScanned : scan "-.05ex".toList = some (⟨true, [], some ['0', '5'], none⟩, ['e', 'x']) ∧
    ∃ x, number.Yields "-.05ex".toList (some ⟨['e', 'x'], [x]⟩) ∧ Binary64.Rounds true (5 / 100) x := by
  have found : scan "-.05ex".toList = some (⟨true, [], some ['0', '5'], none⟩, ['e', 'x']) := rfl
  obtain ⟨-, -, taken⟩ := floatsAreScanned "-.05ex".toList
  obtain ⟨x, yields, rounds, -⟩ := taken _ _ found
  have exact : (Spelling.mk true [] (some ['0', '5']) none).magnitude = 5 / 100 := by
    have digits : (Spelling.mk true [] (some ['0', '5']) none).significand = 5 := rfl
    rw [Spelling.magnitude, digits]
    norm_num [Spelling.power, Spelling.places]
  exact ⟨found, x, yields, exact ▸ rounds⟩

end FloatLiteral
end Descent
