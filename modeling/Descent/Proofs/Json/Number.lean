import Descent.Json.Number
import Descent.Proofs.Conversion
/-!
Numbers of JSON texts and the values they denote. Which value a spelling denotes is said without the
order in which the parser tries the kinds of numbers; the parser has no other match, and none for
less than all that could belong to the number.
-/
namespace Descent
open Numeral (digits decimal whole run Canonical wordBound)
open Text (Apart)

namespace Spelling

def Fits (s : Spelling) : Prop :=
  s.Integral ∧
    if s.negative then 0 < s.significand ∧ s.significand ≤ 2 ^ 63 else s.significand < 2 ^ 64

inductive Denotes (s : Spelling) : Value → Prop
  | unsigned {n : UInt64} (fits : s.Fits) (positive : s.negative = false)
      (same : n.toNat = s.significand) : Denotes s (.unsigned n)
  | signed {n : Int64} (fits : s.Fits) (negative : s.negative = true)
      (same : n.toInt = -s.significand) : Denotes s (.signed n)
  | float {x : Binary64} (other : ¬ s.Fits) (rounds : Binary64.Rounds s.negative s.magnitude x)
      (finite : x.isFinite = true) : Denotes s (.float x)

theorem denotesUnique {s : Spelling} {v w : Value} (first : s.Denotes v) (second : s.Denotes w) :
    v = w := by
  cases first with
  | unsigned fits positive same =>
    cases second with
    | unsigned _ _ same' => rw [UInt64.toNat_inj.mp (same.trans same'.symm)]
    | signed _ negative _ => exact absurd negative (Bool.eq_false_iff.mp positive)
    | float other _ _ => exact absurd fits other
  | signed fits negative same =>
    cases second with
    | unsigned _ positive _ => exact absurd negative (Bool.eq_false_iff.mp positive)
    | signed _ _ same' => rw [Int64.toInt_inj.mp (same.trans same'.symm)]
    | float other _ _ => exact absurd fits other
  | float other rounds finite =>
    cases second with
    | unsigned fits _ _ => exact absurd fits other
    | signed fits _ _ => exact absurd fits other
    | float _ rounds' _ => rw [Binary64.roundsUnique rounds rounds']

end Spelling

namespace Json.Number
open Descent.Parser (Computes one behind choice sequence many many1 map mapAll mapAll? skip succeed
  anyChar literal)
open FloatLiteral (scan minus numeric)

theorem finiteOne (x : Binary64) :
    finite? [x] = if x.isFinite then some [Value.float x] else none := by
  simp only [finite?, List.mapM_cons, List.mapM_nil]
  split <;> rfl

def finiteMatch (rest : Text) (x : Binary64) : Option (Match Value) :=
  if x.isFinite then some ⟨rest, [.float x]⟩ else none

def wordAhead (f : UInt64 → Value) (input : Text) : Option (Match Value) :=
  (whole input).bind fun found =>
    if decimal found.1 < wordBound then some ⟨found.2, [f (UInt64.ofNat (decimal found.1))]⟩ else none

def digitsAhead (negative : Bool) (input : Text) : Option (Match Value) :=
  (run input).bind fun found =>
    finiteMatch found.2 (Binary64.ofDecimal negative (decimal found.1) 0)

def largeAhead : Text → Option (Match Value)
  | '-' :: input => digitsAhead true input
  | input => digitsAhead false input

def ahead (input : Text) : Option (Match Value) :=
  ((scan input).bind fun found => finiteMatch found.2 found.1.literal.value).or
    ((wordAhead .unsigned input).or ((behind '-' (wordAhead negate) input).or (largeAhead input)))

theorem floatingComputes : floating.Computes fun input =>
    (scan input).bind fun found => finiteMatch found.2 found.1.literal.value := by
  refine Parser.computesEq (Parser.mapAllComputes? FloatLiteral.numberComputes) fun input => ?_
  cases scan input with
  | none => rfl
  | some found =>
    simp only [Option.map_some, Option.bind_some, finiteOne, finiteMatch]
    split <;> rfl

theorem wordComputes (f : UInt64 → Value) : (map f Numeral.int).Computes (wordAhead f) := by
  refine Parser.computesEq (Parser.mapComputes Numeral.intComputes) fun input => ?_
  unfold wordAhead
  cases whole input with
  | none => rfl
  | some found => by_cases fits : decimal found.1 < wordBound <;> simp [fits]

theorem negativeComputes : negative.Computes (behind '-' (wordAhead negate)) := by
  refine Parser.computesEq (Parser.mapComputes (Parser.behindComputes '-' Numeral.intComputes))
    fun input => ?_
  cases input with
  | nil => rfl
  | cons c rest =>
    by_cases minus : '-' = c
    · simp only [behind, if_pos minus, wordAhead]
      cases whole rest with
      | none => rfl
      | some found => by_cases fits : decimal found.1 < wordBound <;> simp [fits]
    · simp [behind, minus]

theorem digitAlone (c : Char) : digit? [c] = if c.isDigit then some [c] else none := by
  rw [digit?, List.all_cons, List.all_nil, Bool.and_true]

theorem digitsComputes : (many1 (mapAll? digit? anyChar)).Computes fun input =>
    (run input).map fun found => ⟨found.2, found.1⟩ := by
  have digit : (mapAll? digit? anyChar).Computes
      (one fun c => if c.isDigit then some c else none) :=
    Parser.computesEq (Parser.mapAllComputes? Parser.anyCharComputes) fun input => by
      cases input with
      | nil => rfl
      | cons c rest =>
        simp only [one, Option.map_some, Option.bind_some, digitAlone]
        split <;> rfl
  have isDigit : (fun c : Char => (if c.isDigit then some c else none).isSome) = Char.isDigit := by
    funext c
    split
    · exact Eq.symm ‹_›
    · exact (Bool.eq_false_iff.mpr ‹_›).symm
  refine Parser.computesEq (Parser.many1OneComputes digit) fun input => ?_
  have kept : (input.takeWhile Char.isDigit).filterMap (fun c => if c.isDigit then some c else none) =
      input.takeWhile Char.isDigit :=
    (List.filterMap_congr fun c here => if_pos (Text.takeWhileInside _ _ c here)).trans
      List.filterMap_some
  simp only [isDigit, kept, run]
  split <;> rfl

theorem digitsNearest (negative : Bool) (input : Text) : ((run input).bind fun found =>
      (nearest? ((if negative then ['-'] else []) ++ found.1)).map fun values => ⟨found.2, values⟩) =
    digitsAhead negative input := by
  unfold digitsAhead
  refine Option.bind_congr fun found here => ?_
  obtain ⟨-, full, inside, -⟩ := Numeral.runSplits here
  rw [nearest?, Decimal.convertDigits negative inside full, Option.bind_eq_bind, Option.bind_some,
    finiteOne, finiteMatch]
  split <;> rfl

theorem largeComputes : large.Computes largeAhead := by
  have signed : sign.Computes fun input => some (minus '-' input) := FloatLiteral.signComputes '-'
  refine Parser.computesEq (Parser.mapAllComputes? (Parser.sequenceComputes signed
    (Parser.lastComputes digitsComputes))) fun input => ?_
  unfold largeAhead
  split
  · rename_i rest
    rw [← digitsNearest]
    cases found : run rest <;> simp [minus, found]
  · rename_i other
    have unsigned : minus '-' input = ⟨input, []⟩ := by
      unfold minus
      split
      · exact absurd rfl (other _)
      · rfl
    rw [← digitsNearest]
    cases found : run input <;> simp [unsigned, found]

theorem parserComputes : parser.Computes ahead :=
  Parser.computesEq (Parser.choiceComputes floatingComputes (Parser.choiceComputes
    (wordComputes .unsigned) (Parser.choiceComputes negativeComputes
      (Parser.choiceComputes largeComputes fun _ => rfl)))) fun input => by
    simp only [ahead, Option.or_none]

theorem integralSignificand (negative : Bool) (i : Text) :
    (Spelling.mk negative i none none).significand = decimal i := by
  simp [Spelling.significand, Spelling.places]

theorem integralMagnitude (negative : Bool) (i : Text) :
    (Spelling.mk negative i none none).magnitude = decimal i := by
  simp [Spelling.magnitude, integralSignificand, Spelling.places, Spelling.power]

theorem integralLenient (negative : Bool) {i : Text} (canonical : Canonical i) :
    (Spelling.mk negative i none none).Lenient :=
  ⟨.inl canonical, List.forall_mem_nil _, by simp⟩

theorem wordToNat {n : Nat} (small : n < wordBound) : (UInt64.ofNat n).toNat = n :=
  UInt64.toNat_ofNat_of_lt' small

theorem plainDenotes {i : Text} (small : decimal i < wordBound) :
    (Spelling.mk false i none none).Denotes (.unsigned (UInt64.ofNat (decimal i))) := by
  have same := integralSignificand false i
  refine .unsigned ⟨⟨rfl, rfl⟩, ?_⟩ rfl ((wordToNat small).trans same.symm)
  simp only [Bool.false_eq_true, if_false, same]
  exact small

theorem integralRounds (negative : Bool) (i : Text) :
    Binary64.Rounds negative (Spelling.mk negative i none none).magnitude
      (Binary64.ofDecimal negative (decimal i) 0) := by
  rw [integralMagnitude]
  exact Binary64.wholeRounds negative (decimal i)

theorem negateWord (magnitude : UInt64) : negate magnitude =
    if 0 < magnitude.toNat ∧ magnitude.toNat ≤ negativeBound then
      .signed (Int64.ofInt (-(magnitude.toNat : Int)))
    else .float (Binary64.ofDecimal true magnitude.toNat 0) := by
  have finite := Binary64.wholeFinite true magnitude.toNat_lt
  unfold negate
  dsimp only
  rw [Binary64.negatedWhole, orNull, if_pos finite]

theorem negatedDenotes {i : Text} (small : decimal i < wordBound) :
    (Spelling.mk true i none none).Denotes (negate (UInt64.ofNat (decimal i))) := by
  have same := integralSignificand true i
  have bound : negativeBound = 2 ^ 63 := rfl
  rw [negateWord, wordToNat small, bound]
  split
  · rename_i fits
    have exact : (Int64.ofInt (-(decimal i : Int))).toInt = -(decimal i : Int) :=
      Int64.toInt_ofInt_of_le (by omega) (by omega)
    refine .signed ⟨⟨rfl, rfl⟩, ?_⟩ rfl (by rw [same, exact])
    simpa only [if_true, same] using fits
  · rename_i beyond
    refine .float (fun fits => beyond ?_) (integralRounds true i) (Binary64.wholeFinite true small)
    simpa only [if_true, same] using fits.2

theorem largeUnfit (negative : Bool) {i : Text} (large : wordBound ≤ decimal i) :
    ¬ (Spelling.mk negative i none none).Fits := by
  have bound : wordBound = 2 ^ 64 := rfl
  rintro ⟨-, fits⟩
  rw [integralSignificand] at fits
  cases negative with
  | false =>
    simp only [Bool.false_eq_true, if_false] at fits
    omega
  | true =>
    simp only [if_true] at fits
    omega

theorem largeDenotes (negative : Bool) {i : Text} (large : wordBound ≤ decimal i)
    (finite : (Binary64.ofDecimal negative (decimal i) 0).isFinite = true) :
    (Spelling.mk negative i none none).Denotes (.float (Binary64.ofDecimal negative (decimal i) 0)) :=
  .float (largeUnfit negative large) (integralRounds negative i) finite

def SpelledBy (form : Spelling → Prop) (t : Text) (v : Value) : Prop :=
  ∃ s : Spelling, s.text = t ∧ form s ∧ s.Denotes v

def Spells : Text → Value → Prop :=
  SpelledBy fun s => s.Lenient ∧ s.Bounded

theorem finiteMatchSome {rest : Text} {x : Binary64} {m : Match Value}
    (found : finiteMatch rest x = some m) : x.isFinite = true ∧ m = ⟨rest, [.float x]⟩ := by
  unfold finiteMatch at found
  split at found
  · exact ⟨‹_›, (Option.some.inj found).symm⟩
  · contradiction

theorem wordAheadSome {f : UInt64 → Value} {input : Text} {m : Match Value}
    (found : wordAhead f input = some m) : ∃ i, input = i ++ m.rest ∧ Canonical i ∧
      decimal i < wordBound ∧ m.produced = [f (UInt64.ofNat (decimal i))] := by
  obtain ⟨⟨i, rest⟩, integer, same⟩ := Option.bind_eq_some_iff.mp found
  split at same
  · rename_i small
    cases same
    obtain ⟨splits, canonical⟩ := Numeral.wholeSplits integer
    exact ⟨i, splits, canonical, small, rfl⟩
  · contradiction

theorem digitsCanonical {f : UInt64 → Value} {input i rest : Text}
    (digits : run input = some (i, rest)) (missed : wordAhead f input = none) :
    Canonical i ∧ wordBound ≤ decimal i := by
  cases integer : whole input with
  | none =>
    rw [Numeral.runNone (Numeral.wholeNoneApart integer)] at digits
    contradiction
  | some found =>
    have large : wordBound ≤ decimal found.1 := by
      simpa [wordAhead, integer] using missed
    obtain ⟨splits, canonical⟩ := Numeral.wholeSplits integer
    -- A zero alone would have 64 bits, so the digits begin with another one.
    have longest : whole input = run input := by
      cases input with
      | nil => rfl
      | cons c t =>
        apply Numeral.wholeCons
        rintro rfl
        cases integer
        have small : ¬ wordBound ≤ decimal ['0'] := by decide
        exact small large
    rw [longest, digits] at integer
    cases integer
    exact ⟨canonical, large⟩

theorem digitsAheadSome {f : UInt64 → Value} {negative : Bool} {input : Text} {m : Match Value}
    (found : digitsAhead negative input = some m) (missed : wordAhead f input = none) :
    ∃ i v, input = i ++ m.rest ∧ Canonical i ∧ m.produced = [v] ∧
      (Spelling.mk negative i none none).Denotes v := by
  obtain ⟨⟨i, rest⟩, digits, same⟩ := Option.bind_eq_some_iff.mp found
  obtain ⟨finite, rfl⟩ := finiteMatchSome same
  obtain ⟨canonical, large⟩ := digitsCanonical digits missed
  exact ⟨i, _, (Numeral.runSplits digits).1, canonical, rfl, largeDenotes negative large finite⟩

theorem spellsIntegral {negative : Bool} {i : Text} {v : Value} (canonical : Canonical i)
    (denotes : (Spelling.mk negative i none none).Denotes v) :
    Spells ((if negative then ['-'] else []) ++ i) v :=
  ⟨⟨negative, i, none, none⟩, by simp [Spelling.text],
    ⟨integralLenient negative canonical, by simp [Spelling.Bounded]⟩, denotes⟩

theorem aheadSpells {input : Text} {m : Match Value} (found : ahead input = some m) :
    ∃ w v, input = w ++ m.rest ∧ m.produced = [v] ∧ Spells w v := by
  rcases Option.or_eq_some_iff.mp found with floating | ⟨-, found⟩
  · obtain ⟨⟨s, rest⟩, scanned, same⟩ := Option.bind_eq_some_iff.mp floating
    obtain ⟨finite, rfl⟩ := finiteMatchSome same
    obtain ⟨splits, lenient, bounded, pointed, -⟩ := FloatLiteral.scanSplits scanned
    exact ⟨s.text, _, splits, rfl, s, rfl, ⟨lenient, bounded⟩,
      .float (fun fits => pointed fits.1) s.literalRounds finite⟩
  rcases Option.or_eq_some_iff.mp found with plain | ⟨notPlain, found⟩
  · obtain ⟨i, splits, canonical, small, produced⟩ := wordAheadSome plain
    exact ⟨i, _, splits, produced, spellsIntegral canonical (plainDenotes small)⟩
  rcases Option.or_eq_some_iff.mp found with negated | ⟨notNegated, found⟩
  · cases input with
    | nil => contradiction
    | cons c input =>
      rw [behind] at negated
      split at negated
      · rename_i sign
        cases sign
        obtain ⟨i, splits, canonical, small, produced⟩ := wordAheadSome negated
        exact ⟨'-' :: i, _, by rw [splits, List.cons_append], produced,
          spellsIntegral canonical (negatedDenotes small)⟩
      · contradiction
  · unfold largeAhead at found
    split at found
    · obtain ⟨i, v, splits, canonical, produced, denotes⟩ := digitsAheadSome found notNegated
      exact ⟨'-' :: i, v, by rw [splits, List.cons_append], produced,
        spellsIntegral canonical denotes⟩
    · obtain ⟨i, v, splits, canonical, produced, denotes⟩ := digitsAheadSome found notPlain
      exact ⟨i, v, splits, produced, spellsIntegral canonical denotes⟩

theorem wordAheadMatch (f : UInt64 → Value) {i rest : Text} (canonical : Canonical i)
    (stop : Apart Char.isDigit rest) : wordAhead f (i ++ rest) =
      if decimal i < wordBound then some ⟨rest, [f (UInt64.ofNat (decimal i))]⟩ else none := by
  rw [wordAhead, Numeral.wholeSome canonical stop]
  rfl

theorem digitsAheadMatch (negative : Bool) {i rest : Text} (canonical : Canonical i)
    (stop : Apart Char.isDigit rest) : digitsAhead negative (i ++ rest) =
      finiteMatch rest (Binary64.ofDecimal negative (decimal i) 0) := by
  rw [digitsAhead, Numeral.runSome (Numeral.canonicalFull canonical)
    (Numeral.canonicalDigit canonical) stop]
  rfl

theorem finiteMatchDenotes {negative : Bool} {i : Text} {v : Value} (large : wordBound ≤ decimal i)
    (denotes : (Spelling.mk negative i none none).Denotes v) (rest : Text) :
    finiteMatch rest (Binary64.ofDecimal negative (decimal i) 0) = some ⟨rest, [v]⟩ := by
  cases denotes with
  | unsigned fits _ _ => exact absurd fits (largeUnfit negative large)
  | signed fits _ _ => exact absurd fits (largeUnfit negative large)
  | float _ rounds finite =>
    rw [← Binary64.roundsUnique rounds (integralRounds negative i), finiteMatch, if_pos finite]

theorem largeAheadMatch (negative : Bool) {i : Text} (canonical : Canonical i) (rest : Text) :
    largeAhead ((if negative then ['-'] else []) ++ (i ++ rest)) = digitsAhead negative (i ++ rest) := by
  cases negative with
  | true => rfl
  | false =>
    have unsigned := FloatLiteral.canonicalUnsigned canonical rest
    unfold largeAhead
    split
    · rename_i same
      have same : i ++ rest = _ := same
      rw [same] at unsigned
      exact absurd (Text.apartCons.mp unsigned) (by decide)
    · rfl

theorem aheadWhole (negative : Bool) {i rest : Text} (canonical : Canonical i)
    (stop : Apart numeric rest) : ahead ((if negative then ['-'] else []) ++ (i ++ rest)) =
      if decimal i < wordBound then
        some ⟨rest, [if negative then negate (UInt64.ofNat (decimal i))
          else .unsigned (UInt64.ofNat (decimal i))]⟩
      else finiteMatch rest (Binary64.ofDecimal negative (decimal i) 0) := by
  obtain ⟨digit, -, -⟩ := FloatLiteral.apartNumeric stop
  have large := largeAheadMatch negative canonical rest
  rw [ahead, FloatLiteral.scanNone negative canonical stop, large, Option.bind_none, Option.none_or,
    digitsAheadMatch negative canonical digit]
  cases negative with
  | false =>
    have unsigned : behind '-' (wordAhead negate) (i ++ rest) = none :=
      Parser.behindMiss fun after same => by
        have apart := FloatLiteral.canonicalUnsigned canonical rest
        rw [same] at apart
        exact absurd (Text.apartCons.mp apart) (by decide)
    simp only [Bool.false_eq_true, if_false, List.nil_append, unsigned, Option.none_or]
    rw [wordAheadMatch _ canonical digit]
    split <;> rfl
  | true =>
    have noPlain : wordAhead .unsigned ('-' :: (i ++ rest)) = none := by
      rw [wordAhead, Numeral.wholeNone (Text.apartCons.mpr rfl)]
      rfl
    have signed : behind '-' (wordAhead negate) ('-' :: (i ++ rest)) = wordAhead negate (i ++ rest) := rfl
    simp only [if_true, List.cons_append, List.nil_append, noPlain, signed, Option.none_or]
    rw [wordAheadMatch _ canonical digit]
    split <;> rfl

theorem aheadIntegral {negative : Bool} {i rest : Text} {v : Value} (canonical : Canonical i)
    (stop : Apart numeric rest) (denotes : (Spelling.mk negative i none none).Denotes v) :
    ahead ((if negative then ['-'] else []) ++ (i ++ rest)) = some ⟨rest, [v]⟩ := by
  rw [aheadWhole negative canonical stop]
  by_cases small : decimal i < wordBound
  · rw [if_pos small]
    cases negative with
    | false => rw [Spelling.denotesUnique denotes (plainDenotes small)]; rfl
    | true => rw [Spelling.denotesUnique denotes (negatedDenotes small)]; rfl
  · rw [if_neg small]
    exact finiteMatchDenotes (Nat.le_of_not_lt small) denotes rest

theorem aheadMatches {w rest : Text} {v : Value} (spells : Spells w v) (stop : Apart numeric rest) :
    ahead (w ++ rest) = some ⟨rest, [v]⟩ := by
  obtain ⟨s, rfl, ⟨lenient, bounded⟩, denotes⟩ := spells
  by_cases integral : s.Integral
  · obtain ⟨negative, i, fraction, exponent⟩ := s
    obtain ⟨rfl, rfl⟩ := integral
    have canonical := lenient.integer.resolve_right fun side => side.2 rfl
    have written : Spelling.text ⟨negative, i, none, none⟩ ++ rest =
        (if negative then ['-'] else []) ++ (i ++ rest) := by
      simp [Spelling.text]
    rw [written]
    exact aheadIntegral canonical stop denotes
  · rw [ahead, FloatLiteral.scanSome lenient bounded integral stop]
    cases denotes with
    | unsigned fits _ _ => exact absurd fits.1 integral
    | signed fits _ _ => exact absurd fits.1 integral
    | float _ rounds finite =>
      rw [Option.bind_some, ← Binary64.roundsUnique rounds s.literalRounds, finiteMatch,
        if_pos finite, Option.some_or]

end Json.Number
end Descent
