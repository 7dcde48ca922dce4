import Descent.FloatLiteral
import Descent.Proofs.Numeral
/-!
Spellings of numbers, and the scanner that a float literal amounts to: the choices of the parser
come down to one look at each part, with no part looked at again. A spelling has a point or an
exponent exactly if the scanner takes all of it, as far as the exponent is not too large.
-/
namespace Descent
open Numeral (digits decimal whole run Canonical)
open Text (Apart)

structure Exponent where
  mark : Char
  sign : Option Char
  digits : Text

structure Spelling where
  negative : Bool
  integer : Text
  fraction : Option Text
  exponent : Option Exponent

namespace Exponent

def text (e : Exponent) : Text :=
  e.mark :: e.sign.toList ++ e.digits

def value (e : Exponent) : Int :=
  if e.sign = some '-' then -(decimal e.digits : Int) else decimal e.digits

structure Formed (e : Exponent) : Prop where
  mark : e.mark = 'e' ∨ e.mark = 'E'
  sign : ∀ c ∈ e.sign, c = '+' ∨ c = '-'
  full : e.digits ≠ []
  digits : ∀ c ∈ e.digits, c.isDigit = true

end Exponent

namespace Spelling

def places (s : Spelling) : Text :=
  s.fraction.getD []

def power (s : Spelling) : Int :=
  s.exponent.elim 0 Exponent.value

def text (s : Spelling) : Text :=
  (if s.negative then ['-'] else []) ++ s.integer ++ (s.fraction.elim [] fun f => '.' :: f) ++
    s.exponent.elim [] Exponent.text

structure Lenient (s : Spelling) : Prop where
  integer : Canonical s.integer ∨ (s.integer = [] ∧ s.places ≠ [])
  places : ∀ c ∈ s.places, c.isDigit = true
  exponent : ∀ e ∈ s.exponent, e.Formed

def Bounded (s : Spelling) : Prop :=
  ∀ e ∈ s.exponent, decimal e.digits ≤ 2147483647

def Integral (s : Spelling) : Prop :=
  s.fraction = none ∧ s.exponent = none

structure EndsAt (s : Spelling) (rest : Text) : Prop where
  digits : Apart Char.isDigit rest
  exponent (none : s.exponent = none) (e : Exponent) (after : Text) (follows : rest = e.text ++ after)
    (formed : e.Formed) (stop : Apart Char.isDigit after) : 2147483647 < decimal e.digits

end Spelling

namespace FloatLiteral
open Descent.Parser (Computes one behind choice sequence many many1 map mapAll fold skip succeed literal)
open Numeral (decimalDigit canonicalDigits bounded)

def signAhead : Text → Option Char × Text
  | '+' :: rest => (some '+', rest)
  | '-' :: rest => (some '-', rest)
  | input => (none, input)

def magnitudeAhead (input : Text) : Option (Text × Text) :=
  (run input).filter fun found => decimal found.1 < exponentBound

def exponentAhead : Text → Option (Exponent × Text)
  | [] => none
  | mark :: input =>
    if mark = 'e' ∨ mark = 'E' then
      (magnitudeAhead (signAhead input).2).map fun found =>
        (⟨mark, (signAhead input).1, found.1⟩, found.2)
    else none

def placesAhead : Text → Option (Text × Text)
  | '.' :: after => some ((run after).getD ([], after))
  | _ => none

def pointedAhead (input : Text) : Option ((Text × Text) × Text) :=
  match whole input with
  | some (i, rest) => (placesAhead rest).map fun found => ((i, found.1), found.2)
  | none => (placesAhead input).bind fun found =>
    if found.1 = [] then none else some (([], found.1), found.2)

def unsignedAhead (input : Text) : Option (Spelling × Text) :=
  match pointedAhead input with
  | some ((i, f), rest) =>
    match exponentAhead rest with
    | some (e, rest) => some (⟨false, i, some f, some e⟩, rest)
    | none => some (⟨false, i, some f, none⟩, rest)
  | none =>
    (whole input).bind fun found =>
      (exponentAhead found.2).map fun e => (⟨false, found.1, none, some e.1⟩, e.2)

def scan : Text → Option (Spelling × Text)
  | '-' :: input => (unsignedAhead input).map fun found => ({found.1 with negative := true}, found.2)
  | input => unsignedAhead input

def minus {α : Type} (a : α) : Text → Match α
  | '-' :: rest => ⟨rest, [a]⟩
  | input => ⟨input, []⟩

theorem signComputes {α : Type} (a : α) :
    (choice [map (fun _ => a) (literal "-"), succeed]).Computes fun input => some (minus a input) := by
  refine Parser.computesEq (Parser.choiceComputes
    (Parser.mapComputes (Parser.literalComputes '-'))
    (Parser.choiceComputes (f := fun input => some ⟨input, []⟩) (fun _ => rfl) fun _ => rfl))
    fun input => ?_
  cases input with
  | nil => rfl
  | cons c rest =>
    by_cases same : '-' = c
    · subst same
      rfl
    · have other : minus a (c :: rest) = ⟨c :: rest, []⟩ := by
        unfold minus
        split
        · simp_all
        · rfl
      simp [one, same, other]

theorem exponentDigitsComputes : exponentDigits.Computes fun input =>
    (magnitudeAhead input).map fun found => ⟨found.2, [(decimal found.1 : Int)]⟩ := by
  refine Parser.computesEq (Parser.mapComputes (Numeral.boundedComputes (by decide) (by decide)
    Numeral.many1DigitsComputes)) fun input => ?_
  unfold magnitudeAhead
  cases run input with
  | none => rfl
  | some found =>
    simp only [Option.map_some, Option.bind_some, Option.filter_some]
    rw [Numeral.decimalValue]
    by_cases fits : decimal found.1 < exponentBound
    · rw [if_pos fits, if_pos (decide_eq_true fits)]
      rfl
    · rw [if_neg fits, if_neg (mt of_decide_eq_true fits)]
      rfl

theorem magnitudeNone {c : Char} {rest : Text} (other : c.isDigit = false) :
    magnitudeAhead (c :: rest) = none := by
  rw [magnitudeAhead, Numeral.runNone (Text.apartCons.mpr other)]
  rfl

theorem signedExponentComputes : signedExponent.Computes fun input =>
    (magnitudeAhead (signAhead input).2).map fun found =>
      ⟨found.2, [Exponent.value ⟨'e', (signAhead input).1, found.1⟩]⟩ := by
  refine Parser.computesEq (Parser.choiceComputes exponentDigitsComputes (Parser.choiceComputes
    (Parser.mapComputes (Parser.behindComputes '-' exponentDigitsComputes))
    (Parser.choiceComputes (Parser.behindComputes '+' exponentDigitsComputes)
      fun _ => rfl))) fun input => ?_
  unfold signAhead
  split
  · rename_i rest
    rw [magnitudeNone rfl]
    cases found : magnitudeAhead rest <;> simp [behind, Exponent.value, found]
  · rename_i rest
    rw [magnitudeNone rfl]
    have negated (n : Nat) : (n : Int).neg = -n := rfl
    cases found : magnitudeAhead rest <;> simp [behind, Exponent.value, found, negated]
  · rename_i plus minus
    rw [Parser.behindMiss minus, Parser.behindMiss plus]
    cases magnitudeAhead input <;> simp [Exponent.value]

theorem exponentFits {input : Text} {m : Match Int} (found : signedExponent.Yields input (some m)) :
    ∀ e ∈ m.produced, -2147483648 ≤ e ∧ e ≤ 2147483647 := by
  have computed : signedExponent.Yields input _ := signedExponentComputes input
  obtain ⟨taken, magnitude, same⟩ := Option.map_eq_some_iff.mp
    (Except.ok.inj (computed.symm.trans found))
  have small : decimal taken.1 < exponentBound := by
    simpa using (Option.filter_eq_some_iff.mp magnitude).2
  have bound : exponentBound = 2147483648 := rfl
  cases same
  simp only [List.mem_singleton, forall_eq, Exponent.value]
  split <;> omega

theorem markComputes : (skip (choice [literal "e", literal "E"]) : Parser Part).Computes fun input =>
    (behind 'e' (fun rest => some ⟨rest, []⟩) input).or
      (behind 'E' (fun rest => some ⟨rest, []⟩) input) :=
  Parser.computesEq (Parser.mapAllComputes (Parser.choiceComputes (Parser.literalComputes 'e')
    (Parser.choiceComputes (Parser.literalComputes 'E') fun _ => rfl))) fun input => by
    cases input with
    | nil => rfl
    | cons c rest =>
      by_cases lower : 'e' = c
      · subst lower
        rfl
      · by_cases upper : 'E' = c <;> simp [one, behind, lower, upper]

theorem exponentPartComputes : exponentPart.Computes fun input =>
    (exponentAhead input).map fun found => ⟨found.2, [.exponent found.1.value]⟩ := by
  refine Parser.computesEq (Parser.sequenceComputes markComputes (Parser.lastComputes
    (Parser.mapComputes signedExponentComputes))) fun input => ?_
  cases input with
  | nil => rfl
  | cons c rest =>
    by_cases marked : c = 'e' ∨ c = 'E'
    · have skipped : (behind 'e' (fun rest => some ⟨rest, []⟩) (c :: rest)).or
          (behind 'E' (fun rest => some ⟨rest, []⟩) (c :: rest)) =
            (some ⟨rest, []⟩ : Option (Match Part)) := by
        rcases marked with rfl | rfl <;> rfl
      simp only [skipped, exponentAhead, if_pos marked, Option.bind_some]
      cases magnitudeAhead (signAhead rest).2 <;> rfl
    · obtain ⟨lower, upper⟩ := not_or.mp marked
      simp [behind, exponentAhead, Ne.symm lower, Ne.symm upper, lower, upper]

def parts (i f : Text) : List Part :=
  (if i = [] then [] else [.integer (digits i)]) ++ (if f = [] then [] else [.fraction (digits f)])

theorem integerPartComputes : integerPart.Computes fun input =>
    (whole input).map fun found => ⟨found.2, [.integer (digits found.1)]⟩ :=
  Parser.computesEq (Parser.mapComputes (Parser.mapAllComputes Numeral.canonicalDigitsComputes))
    fun input => by cases whole input <;> rfl

theorem fractionPartComputes : fractionPart.Computes fun input =>
    (run input).map fun found => ⟨found.2, [.fraction (digits found.1)]⟩ :=
  Parser.computesEq (Parser.mapComputes (Parser.mapAllComputes Numeral.many1DigitsComputes))
    fun input => by cases run input <;> rfl

theorem pointedComputes : pointed.Computes fun input =>
    (pointedAhead input).map fun found => ⟨found.2, parts found.1.1 found.1.2⟩ := by
  refine Parser.computesEq (Parser.choiceComputes
    (Parser.sequenceComputes integerPartComputes (Parser.behindComputes '.' fractionPartComputes))
    (Parser.choiceComputes (Parser.sequenceComputes integerPartComputes
      (Parser.lastComputes (Parser.skipLiteralComputes '.')))
    (Parser.choiceComputes (Parser.behindComputes '.' fractionPartComputes)
      fun _ => rfl))) fun input => ?_
  cases found : whole input with
  | some taken =>
    obtain ⟨i, rest⟩ := taken
    have full := Numeral.canonicalFull (Numeral.wholeSplits found).2
    have apart : ∀ after, input = '.' :: after → False := by
      rintro after rfl
      rw [Numeral.wholeNone (Text.apartCons.mpr rfl)] at found
      contradiction
    simp only [pointedAhead, found, Parser.behindMiss apart]
    unfold placesAhead
    split
    · rename_i after
      cases fraction : run after with
      | none => simp [behind, fraction, parts, full]
      | some f =>
        have some := (Numeral.runSplits fraction).2.1
        simp [behind, fraction, parts, full, some]
    · rename_i other
      simp [Parser.behindMiss other]
  | none =>
    simp only [pointedAhead, found]
    unfold placesAhead
    split
    · rename_i after
      cases fraction : run after with
      | none => simp [behind, fraction]
      | some f =>
        have some := (Numeral.runSplits fraction).2.1
        simp [behind, fraction, parts, some]
    · rename_i other
      simp [Parser.behindMiss other]

theorem unsignedComputes : unsignedParts.Computes fun input =>
    (unsignedAhead input).map fun found => ⟨found.2, parts found.1.integer found.1.places ++
      found.1.exponent.toList.map fun e => .exponent e.value⟩ := by
  refine Parser.computesEq (Parser.choiceComputes
    (Parser.sequenceComputes (Parser.choiceComputes pointedComputes
      (Parser.choiceComputes integerPartComputes fun _ => rfl))
      (Parser.lastComputes exponentPartComputes))
    (Parser.choiceComputes pointedComputes fun _ => rfl)) fun input => ?_
  unfold unsignedAhead
  cases pointed : pointedAhead input with
  | some found =>
    obtain ⟨⟨i, f⟩, rest⟩ := found
    cases exponent : exponentAhead rest <;> simp [exponent, Spelling.places]
  | none =>
    cases found : whole input with
    | none => rfl
    | some taken =>
      have full := Numeral.canonicalFull (Numeral.wholeSplits found).2
      cases exponent : exponentAhead taken.2 <;> simp [exponent, Spelling.places, parts, full]

end FloatLiteral

def Spelling.literal (s : Spelling) : FloatLiteral :=
  ⟨s.negative, digits s.integer, digits s.places, s.power⟩

namespace FloatLiteral

theorem setDigits {l : FloatLiteral} (integer : l.integer = []) (fraction : l.fraction = [])
    (i f : Text) : (parts i f).foldl (fun l part => part.setIn l) l =
      {l with integer := digits i, fraction := digits f} := by
  obtain ⟨negative, _, _, exponent⟩ := l
  cases integer
  cases fraction
  cases i <;> cases f <;> rfl

theorem setParts (s : Spelling) : List.foldl (fun l part => part.setIn l) empty
    ((if s.negative then [.minus] else []) ++ (parts s.integer s.places ++
      s.exponent.toList.map fun e => .exponent e.value)) = s.literal := by
  obtain ⟨negative, integer, fraction, exponent⟩ := s
  rw [List.foldl_append, List.foldl_append]
  cases negative <;> rw [setDigits rfl rfl] <;> cases exponent <;> rfl

theorem unsignedPositive {input : Text} {found : Spelling × Text}
    (unsigned : unsignedAhead input = some found) : found.1.negative = false := by
  unfold unsignedAhead at unsigned
  split at unsigned
  · split at unsigned <;> cases unsigned <;> rfl
  · obtain ⟨taken, -, exponent⟩ := Option.bind_eq_some_iff.mp unsigned
    obtain ⟨e, -, rfl⟩ := Option.map_eq_some_iff.mp exponent
    rfl

theorem parserComputes : parser.Computes fun input =>
    (scan input).map fun found => ⟨found.2, [found.1.literal]⟩ := by
  have signed : sign.Computes fun input => some (minus Part.minus input) := signComputes Part.minus
  refine Parser.computesEq (Parser.mapAllComputes (Parser.sequenceComputes signed
    (Parser.lastComputes unsignedComputes))) fun input => ?_
  unfold scan minus
  split
  · rename_i rest
    cases unsigned : unsignedAhead rest with
    | none => simp [unsigned]
    | some found =>
      have literal := setParts {found.1 with negative := true}
      simp only [Option.bind_some, unsigned, Option.map_some, ← literal]
      rfl
  · cases unsigned : unsignedAhead input with
    | none => simp [unsigned]
    | some found =>
      have literal := setParts found.1
      rw [unsignedPositive unsigned] at literal
      simp only [Option.bind_some, unsigned, Option.map_some, ← literal]
      rfl

theorem exponentWritten {e : Exponent} {rest : Text} (formed : e.Formed)
    (stop : Apart Char.isDigit rest) : exponentAhead (e.text ++ rest) =
      if decimal e.digits < exponentBound then some (e, rest) else none := by
  obtain ⟨mark, sign, ds⟩ := e
  have signed : signAhead (sign.toList ++ ds ++ rest) = (sign, ds ++ rest) := by
    cases sign with
    | none =>
      cases ds with
      | nil => exact absurd rfl formed.full
      | cons d ds =>
        have digit := formed.digits d List.mem_cons_self
        unfold signAhead
        split <;> simp_all
    | some c => rcases formed.sign c rfl with rfl | rfl <;> rfl
  have magnitude : magnitudeAhead (ds ++ rest) =
      if decimal ds < exponentBound then some (ds, rest) else none := by
    rw [magnitudeAhead, Numeral.runSome formed.full formed.digits stop, Option.filter_some]
    simp only [decide_eq_true_eq]
  simp only [Exponent.text, List.cons_append, exponentAhead, if_pos formed.mark, signed, magnitude]
  split <;> rfl

theorem exponentSplits {input rest : Text} {e : Exponent}
    (found : exponentAhead input = some (e, rest)) :
    input = e.text ++ rest ∧ e.Formed ∧ decimal e.digits < exponentBound ∧
      Apart Char.isDigit rest := by
  cases input with
  | nil => contradiction
  | cons mark input =>
    rw [exponentAhead] at found
    split at found
    · rename_i marked
      obtain ⟨taken, magnitude, same⟩ := Option.map_eq_some_iff.mp found
      obtain ⟨rfl, rfl⟩ := Prod.mk.inj same
      obtain ⟨digits, small⟩ := Option.filter_eq_some_iff.mp magnitude
      obtain ⟨splits, full, inside, stop⟩ := Numeral.runSplits digits
      have signs : input = (signAhead input).1.toList ++ (signAhead input).2 ∧
          ∀ c ∈ (signAhead input).1, c = '+' ∨ c = '-' := by
        unfold signAhead
        split <;> simp
      refine ⟨?_, ⟨marked, signs.2, full, inside⟩, by simpa using small, stop⟩
      simp only [Exponent.text, List.cons_append, List.append_assoc, ← splits]
      rw [← signs.1]
    · contradiction

theorem exponentNone {input : Text} (stop : Apart (fun c => c == 'e' || c == 'E') input) :
    exponentAhead input = none := by
  cases input with
  | nil => rfl
  | cons c rest =>
    have other : ¬ (c = 'e' ∨ c = 'E') := by simpa using Text.apartCons.mp stop
    rw [exponentAhead, if_neg other]

theorem exponentApart {e : Exponent} (formed : e.Formed) (rest : Text) :
    Apart Char.isDigit (e.text ++ rest) ∧ Apart (· == '.') (e.text ++ rest) := by
  simp only [Exponent.text, List.cons_append, Text.apartCons]
  rcases formed.mark with same | same <;> simp [same]

theorem exponentEnds {s : Spelling} {rest : Text} (ends : s.EndsAt rest) (none : s.exponent = none) :
    exponentAhead rest = .none := by
  cases found : exponentAhead rest with
  | none => rfl
  | some taken =>
    obtain ⟨follows, formed, small, stop⟩ := exponentSplits found
    have large := ends.exponent none taken.1 taken.2 follows formed stop
    exact absurd (Nat.le_of_lt_succ small) (Nat.not_le.mpr large)

theorem endsExponent {s : Spelling} {rest : Text} (digits : Apart Char.isDigit rest)
    (missed : s.exponent = none → exponentAhead rest = none) : s.EndsAt rest := by
  refine ⟨digits, fun none e after follows formed stop => ?_⟩
  have ahead := (exponentWritten formed stop).symm.trans (follows ▸ missed none)
  rw [ite_eq_right_iff] at ahead
  exact Nat.lt_of_not_le fun small => absurd (ahead (Nat.lt_succ_of_le small)) (Option.some_ne_none _)

theorem pointedSome {i f rest : Text} (integer : Canonical i ∨ (i = [] ∧ f ≠ []))
    (places : ∀ c ∈ f, c.isDigit = true) (stop : Apart Char.isDigit rest) :
    pointedAhead (i ++ '.' :: (f ++ rest)) = some ((i, f), rest) := by
  have fraction : placesAhead ('.' :: (f ++ rest)) = some (f, rest) := by
    rw [placesAhead]
    by_cases some : f = []
    · subst some
      rw [List.nil_append, Numeral.runNone stop]
      rfl
    · rw [Numeral.runSome some places stop]
      rfl
  have point : Apart Char.isDigit ('.' :: (f ++ rest)) := Text.apartCons.mpr rfl
  rcases integer with canonical | ⟨rfl, some⟩
  · rw [pointedAhead, Numeral.wholeSome canonical point]
    simp only [fraction]
    rfl
  · rw [List.nil_append, pointedAhead, Numeral.wholeNone point]
    simp only [fraction, Option.bind_some, if_neg some]

theorem pointedNone {i rest : Text} (canonical : Canonical i) (digit : Apart Char.isDigit rest)
    (stop : Apart (· == '.') rest) : pointedAhead (i ++ rest) = none := by
  rw [pointedAhead, Numeral.wholeSome canonical digit]
  unfold placesAhead
  dsimp only
  split
  · exact absurd (Text.apartCons.mp stop) (by decide)
  · rfl

theorem placesSplits {input f rest : Text} (found : placesAhead input = some (f, rest)) :
    input = '.' :: (f ++ rest) ∧ (∀ c ∈ f, c.isDigit = true) ∧ Apart Char.isDigit rest := by
  unfold placesAhead at found
  split at found
  · rename_i after
    cases fraction : run after with
    | none =>
      rw [fraction] at found
      obtain ⟨rfl, rfl⟩ := Prod.mk.inj (Option.some.inj found)
      exact ⟨rfl, List.forall_mem_nil _, Numeral.runNoneApart fraction⟩
    | some taken =>
      rw [fraction] at found
      cases Option.some.inj found
      obtain ⟨splits, -, inside, stop⟩ := Numeral.runSplits fraction
      exact ⟨by rw [splits], inside, stop⟩
  · contradiction

theorem pointedSplits {input i f rest : Text} (found : pointedAhead input = some ((i, f), rest)) :
    input = i ++ '.' :: (f ++ rest) ∧ (Canonical i ∨ (i = [] ∧ f ≠ [])) ∧
      (∀ c ∈ f, c.isDigit = true) ∧ Apart Char.isDigit rest := by
  unfold pointedAhead at found
  split at found
  · rename_i integer
    obtain ⟨taken, places, same⟩ := Option.map_eq_some_iff.mp found
    cases same
    obtain ⟨splits, canonical⟩ := Numeral.wholeSplits integer
    obtain ⟨after, inside, stop⟩ := placesSplits places
    exact ⟨by rw [splits, after], .inl canonical, inside, stop⟩
  · obtain ⟨taken, places, same⟩ := Option.bind_eq_some_iff.mp found
    split at same
    · contradiction
    · rename_i some
      cases same
      obtain ⟨after, inside, stop⟩ := placesSplits places
      exact ⟨after, .inr ⟨rfl, some⟩, inside, stop⟩

theorem unsignedSplits {input rest : Text} {s : Spelling}
    (found : unsignedAhead input = some (s, rest)) :
    input = s.text ++ rest ∧ s.Lenient ∧ s.Bounded ∧ ¬ s.Integral ∧ s.EndsAt rest := by
  unfold unsignedAhead at found
  split at found
  · rename_i i f middle pointed
    obtain ⟨splits, integer, places, digit⟩ := pointedSplits pointed
    split at found
    · rename_i exponent
      cases found
      obtain ⟨after, formed, small, stop⟩ := exponentSplits exponent
      refine ⟨by simp [splits, after, Spelling.text], ⟨integer, places, ?_⟩, ?_, ?_,
        endsExponent stop (by simp)⟩
      · simpa using formed
      · simpa [Spelling.Bounded] using Nat.le_of_lt_succ small
      · simp [Spelling.Integral]
    · rename_i missed
      cases found
      refine ⟨by simp [splits, Spelling.text], ⟨integer, places, ?_⟩, ?_, ?_,
        endsExponent digit fun _ => missed⟩
      · simp
      · simp [Spelling.Bounded]
      · simp [Spelling.Integral]
  · obtain ⟨taken, integer, found⟩ := Option.bind_eq_some_iff.mp found
    obtain ⟨⟨e, after⟩, exponent, same⟩ := Option.map_eq_some_iff.mp found
    cases same
    obtain ⟨splits, canonical⟩ := Numeral.wholeSplits integer
    obtain ⟨after, formed, small, stop⟩ := exponentSplits exponent
    refine ⟨by simp [splits, after, Spelling.text],
      ⟨.inl canonical, List.forall_mem_nil _, ?_⟩, ?_, ?_, endsExponent stop (by simp)⟩
    · simpa using formed
    · simpa [Spelling.Bounded] using Nat.le_of_lt_succ small
    · simp [Spelling.Integral]

theorem scanSplits {input rest : Text} {s : Spelling} (found : scan input = some (s, rest)) :
    input = s.text ++ rest ∧ s.Lenient ∧ s.Bounded ∧ ¬ s.Integral ∧ s.EndsAt rest := by
  unfold scan at found
  split at found
  · obtain ⟨⟨u, after⟩, unsigned, same⟩ := Option.map_eq_some_iff.mp found
    cases same
    have positive := unsignedPositive unsigned
    obtain ⟨splits, lenient, bounded, pointed, ends⟩ := unsignedSplits unsigned
    refine ⟨?_, ⟨lenient.integer, lenient.places, lenient.exponent⟩, bounded, pointed,
      ⟨ends.digits, ends.exponent⟩⟩
    rw [splits]
    simp [Spelling.text, show u.negative = false from positive]
  · exact unsignedSplits found

def numeric (c : Char) : Bool :=
  c.isDigit || c == '.' || c == 'e' || c == 'E'

theorem apartNumeric {rest : Text} (stop : Apart numeric rest) : Apart Char.isDigit rest ∧
    Apart (· == '.') rest ∧ Apart (fun c => c == 'e' || c == 'E') rest := by
  cases rest with
  | nil => simp [Apart]
  | cons c rest =>
    rw [Text.apartCons] at stop
    simpa [Text.apartCons, numeric, and_assoc] using stop

theorem unsignedSome {s : Spelling} {rest : Text} (positive : s.negative = false)
    (lenient : s.Lenient) (bounded : s.Bounded) (pointed : ¬ s.Integral)
    (ends : s.EndsAt rest) : unsignedAhead (s.text ++ rest) = some (s, rest) := by
  have digit := ends.digits
  have mark := exponentEnds ends
  obtain ⟨negative, i, fraction, exponent⟩ := s
  cases positive
  have taken (e : Exponent) (last : exponent = some e) :
      exponentAhead (e.text ++ rest) = some (e, rest) :=
    (exponentWritten (lenient.exponent e last) digit).trans
      (if_pos (Nat.lt_succ_of_le (bounded e last)))
  have apart (e : Exponent) (last : exponent = some e) :
      Apart Char.isDigit (e.text ++ rest) ∧ Apart (· == '.') (e.text ++ rest) :=
    exponentApart (lenient.exponent e last) rest
  cases fraction with
  | some f =>
    cases exponent with
    | some e =>
      have written : Spelling.text ⟨false, i, some f, some e⟩ ++ rest =
          i ++ '.' :: (f ++ (e.text ++ rest)) := by
        simp [Spelling.text]
      rw [written, unsignedAhead, @pointedSome i f _ lenient.integer lenient.places (apart e rfl).1]
      simp only [taken e rfl]
    | none =>
      have written : Spelling.text ⟨false, i, some f, none⟩ ++ rest = i ++ '.' :: (f ++ rest) := by
        simp [Spelling.text]
      rw [written, unsignedAhead, @pointedSome i f _ lenient.integer lenient.places digit]
      simp only [mark rfl]
  | none =>
    have canonical : Canonical i := lenient.integer.resolve_right fun side => side.2 rfl
    cases exponent with
    | some e =>
      have written : Spelling.text ⟨false, i, none, some e⟩ ++ rest = i ++ (e.text ++ rest) := by
        simp [Spelling.text]
      rw [written, unsignedAhead, pointedNone canonical (apart e rfl).1 (apart e rfl).2]
      simp only [Numeral.wholeSome canonical (apart e rfl).1, Option.bind_some, taken e rfl]
      rfl
    | none => exact absurd ⟨rfl, rfl⟩ pointed

theorem unsignedNone {i rest : Text} (canonical : Canonical i) (digit : Apart Char.isDigit rest)
    (point : Apart (· == '.') rest) (missed : exponentAhead rest = none) :
    unsignedAhead (i ++ rest) = none := by
  rw [unsignedAhead, pointedNone canonical digit point]
  simp only [Numeral.wholeSome canonical digit, Option.bind_some, missed]
  rfl

theorem scanSigned (negative : Bool) {input : Text} (unsigned : Apart (· == '-') input) :
    scan ((if negative then ['-'] else []) ++ input) = (unsignedAhead input).map fun found =>
      ({found.1 with negative := negative}, found.2) := by
  cases negative with
  | true => rfl
  | false =>
    have same : scan input = unsignedAhead input := by
      unfold scan
      split
      · exact absurd (Text.apartCons.mp unsigned) (by decide)
      · rfl
    have kept : ∀ found, unsignedAhead input = some found →
        ({found.1 with negative := false}, found.2) = found := fun found some => by
      rw [← unsignedPositive some]
    cases ahead : unsignedAhead input with
    | none => exact same.trans ahead
    | some found =>
      rw [Option.map_some, kept found ahead, ← ahead]
      exact same

theorem canonicalUnsigned {i : Text} (canonical : Canonical i) (rest : Text) :
    Apart (· == '-') (i ++ rest) := by
  cases canonical with
  | zero => exact Text.apartCons.mpr rfl
  | more first _ _ =>
    refine Text.apartCons.mpr ?_
    rw [beq_eq_false_iff_ne]
    rintro rfl
    contradiction

theorem lenientUnsigned {s : Spelling} (positive : s.negative = false) (lenient : s.Lenient)
    (rest : Text) : Apart (· == '-') (s.text ++ rest) := by
  obtain ⟨negative, i, fraction, exponent⟩ := s
  cases positive
  rcases lenient.integer with canonical | ⟨none, some⟩
  · simp only [Spelling.text, List.append_assoc]
    exact canonicalUnsigned canonical _
  · cases fraction with
    | none => exact absurd rfl some
    | some f =>
      cases none
      exact Text.apartCons.mpr rfl

theorem signedText (s : Spelling) (rest : Text) : s.text ++ rest =
    (if s.negative then ['-'] else []) ++ (({s with negative := false} : Spelling).text ++ rest) := by
  simp [Spelling.text]

theorem scanGreedy {s : Spelling} {rest : Text} (lenient : s.Lenient) (bounded : s.Bounded)
    (pointed : ¬ s.Integral) (ends : s.EndsAt rest) : scan (s.text ++ rest) = some (s, rest) := by
  have positive : ({s with negative := false} : Spelling).Lenient :=
    ⟨lenient.integer, lenient.places, lenient.exponent⟩
  rw [signedText, scanSigned _ (lenientUnsigned rfl positive rest),
    unsignedSome rfl positive bounded pointed ⟨ends.digits, ends.exponent⟩]
  rfl

theorem scanIff {s : Spelling} {input rest : Text} : scan input = some (s, rest) ↔
    input = s.text ++ rest ∧ s.Lenient ∧ s.Bounded ∧ ¬ s.Integral ∧ s.EndsAt rest := by
  refine ⟨scanSplits, ?_⟩
  rintro ⟨rfl, lenient, bounded, pointed, ends⟩
  exact scanGreedy lenient bounded pointed ends

theorem scanSome {s : Spelling} {rest : Text} (lenient : s.Lenient) (bounded : s.Bounded)
    (pointed : ¬ s.Integral) (stop : Apart numeric rest) : scan (s.text ++ rest) = some (s, rest) := by
  obtain ⟨digit, -, mark⟩ := apartNumeric stop
  exact scanGreedy lenient bounded pointed (endsExponent digit fun _ => exponentNone mark)

theorem scanBare (negative : Bool) {i rest : Text} (canonical : Canonical i)
    (digit : Apart Char.isDigit rest) (point : Apart (· == '.') rest)
    (missed : exponentAhead rest = none) :
    scan ((if negative then ['-'] else []) ++ (i ++ rest)) = none := by
  rw [scanSigned _ (canonicalUnsigned canonical rest), unsignedNone canonical digit point missed]
  rfl

theorem scanNone (negative : Bool) {i rest : Text} (canonical : Canonical i)
    (stop : Apart numeric rest) :
    scan ((if negative then ['-'] else []) ++ (i ++ rest)) = none := by
  obtain ⟨digit, point, mark⟩ := apartNumeric stop
  exact scanBare negative canonical digit point (exponentNone mark)

end FloatLiteral
end Descent
