import Descent.Proofs.Conversion
/-!
Exponents and their range. The magnitude of an exponent is bounded before its sign is looked at, so the
least word of 32 bits is out of range as all beyond the words are. An exponent out of range is no match of
its parser: whole digits, which need one, are then no float, but a number with a point ends before it.
-/
namespace Descent
open Numeral (decimal)
open Text (Apart)

namespace Spelling

def scaled (m : Spelling) (e : Exponent) : Spelling :=
  {m with exponent := some e}

variable {m : Spelling} {e : Exponent} {rest : Text}

theorem scaledText (bare : m.exponent = none) (rest : Text) :
    m.text ++ (e.text ++ rest) = (m.scaled e).text ++ rest := by
  obtain ⟨negative, integer, fraction, exponent⟩ := m
  cases bare
  cases negative <;> simp [text, scaled]

theorem scaledLenient (lenient : m.Lenient) (formed : e.Formed) : (m.scaled e).Lenient := by
  refine ⟨lenient.integer, lenient.places, fun other same => ?_⟩
  cases same
  exact formed

end Spelling

theorem Exponent.valueRange (e : Exponent) :
    -2147483648 < e.value ∧ e.value ≤ 2147483647 ↔ decimal e.digits ≤ 2147483647 := by
  unfold value
  split <;> omega

namespace FloatLiteral

variable {m : Spelling} {e : Exponent} {rest : Text}

theorem exponentRefused (formed : e.Formed) (stop : Apart Char.isDigit rest)
    (large : 2147483647 < decimal e.digits) : exponentAhead (e.text ++ rest) = none :=
  (exponentWritten formed stop).trans (if_neg (Nat.not_lt.mpr large))

theorem scanScaled (lenient : m.Lenient) (bare : m.exponent = none) (formed : e.Formed)
    (stop : Apart Char.isDigit rest) (small : decimal e.digits ≤ 2147483647) :
    scan (m.text ++ (e.text ++ rest)) = some (m.scaled e, rest) := by
  have bounded : (m.scaled e).Bounded := by
    rintro other same
    cases same
    exact small
  have scaled : ¬ (m.scaled e).Integral := fun whole => Option.some_ne_none _ whole.2
  have ends : (m.scaled e).EndsAt rest := endsExponent stop fun none => absurd none (Option.some_ne_none _)
  rw [Spelling.scaledText bare]
  exact scanGreedy (Spelling.scaledLenient lenient formed) bounded scaled ends

theorem scanPointed (lenient : m.Lenient) (bare : m.exponent = none) (formed : e.Formed)
    (stop : Apart Char.isDigit rest) (large : 2147483647 < decimal e.digits) (point : m.fraction ≠ none) :
    scan (m.text ++ (e.text ++ rest)) = some (m, e.text ++ rest) := by
  have bounded : m.Bounded := by simp [Spelling.Bounded, bare]
  have ends : m.EndsAt (e.text ++ rest) :=
    endsExponent (exponentApart formed rest).1 fun _ => exponentRefused formed stop large
  exact scanGreedy lenient bounded (fun whole => point whole.1) ends

theorem scanWhole (lenient : m.Lenient) (bare : m.exponent = none) (formed : e.Formed)
    (stop : Apart Char.isDigit rest) (large : 2147483647 < decimal e.digits) (whole : m.fraction = none) :
    scan (m.text ++ (e.text ++ rest)) = none := by
  obtain ⟨negative, integer, fraction, exponent⟩ := m
  cases bare
  cases whole
  have canonical : Numeral.Canonical integer := lenient.integer.resolve_right fun side => side.2 rfl
  have written : Spelling.text ⟨negative, integer, none, none⟩ ++ (e.text ++ rest) =
      (if negative then ['-'] else []) ++ (integer ++ (e.text ++ rest)) := by
    simp [Spelling.text]
  obtain ⟨digit, point⟩ := exponentApart formed rest
  rw [written]
  exact scanBare negative canonical digit point (exponentRefused formed stop large)

/-- An exponent is taken if it is a word of 32 bits above the least one. With any other, whole digits are no
float, and a number with a point is one without it. -/
theorem exponentsAreBounded {m : Spelling} {e : Exponent} {rest : Text} (lenient : m.Lenient)
    (bare : m.exponent = none) (formed : e.Formed) (stop : Apart Char.isDigit rest) :
    (-2147483648 < e.value ∧ e.value ≤ 2147483647 →
      ∃ x, Binary64.Rounds m.negative (m.scaled e).magnitude x ∧
        number.Yields (m.text ++ (e.text ++ rest)) (some ⟨rest, [x]⟩)) ∧
    (e.value ≤ -2147483648 ∨ 2147483647 < e.value →
      (m.fraction = none → number.Yields (m.text ++ (e.text ++ rest)) none) ∧
      (m.fraction ≠ none → ∃ x, Binary64.Rounds m.negative m.magnitude x ∧
        number.Yields (m.text ++ (e.text ++ rest)) (some ⟨e.text ++ rest, [x]⟩))) := by
  have range := e.valueRange
  refine ⟨fun within => ?_, fun beyond => ⟨fun whole => ?_, fun point => ?_⟩⟩
  · have taken := scanScaled lenient bare formed stop (range.mp within)
    exact ⟨_, (m.scaled e).literalRounds, scanYields taken⟩
  · exact scanMisses (scanWhole lenient bare formed stop (by omega) whole)
  · have taken := scanPointed lenient bare formed stop (by omega) point
    exact ⟨_, m.literalRounds, scanYields taken⟩

theorem exponentsAreBoundedBehindAPoint :
    let m : Spelling := ⟨true, [], some ['5'], none⟩
    let last : Exponent := ⟨'E', some '-', "2147483647".toList⟩
    let past : Exponent := ⟨'e', none, "2147483648".toList⟩
    m.Lenient ∧ last.Formed ∧ past.Formed ∧ Apart Char.isDigit [' '] ∧
      last.value = -2147483647 ∧ past.value = 2147483648 ∧
      (∃ x, Binary64.Rounds true (m.scaled last).magnitude x ∧
        number.Yields "-.5E-2147483647 ".toList (some ⟨[' '], [x]⟩)) ∧
      ∃ x, Binary64.Rounds true m.magnitude x ∧
        number.Yields "-.5e2147483648 ".toList (some ⟨"e2147483648 ".toList, [x]⟩) := by
  intro m last past
  have lenient : m.Lenient := ⟨.inr ⟨rfl, List.cons_ne_nil _ _⟩, List.all_eq_true.mp rfl, by simp [m]⟩
  have lastFormed : last.Formed :=
    ⟨.inr rfl, by simp [last], List.cons_ne_nil _ _, List.all_eq_true.mp rfl⟩
  have pastFormed : past.Formed :=
    ⟨.inl rfl, by simp [past], List.cons_ne_nil _ _, List.all_eq_true.mp rfl⟩
  have stop : Apart Char.isDigit [' '] := Text.apartCons.mpr rfl
  have lastValue : last.value = -2147483647 := rfl
  have pastValue : past.value = 2147483648 := rfl
  obtain ⟨within, -⟩ := exponentsAreBounded lenient rfl lastFormed stop
  obtain ⟨-, beyond⟩ := exponentsAreBounded lenient rfl pastFormed stop
  have point : m.fraction ≠ none := Option.some_ne_none _
  exact ⟨lenient, lastFormed, pastFormed, stop, lastValue, pastValue, within (by omega),
    (beyond (by omega)).2 point⟩

theorem exponentRangeNotKept :
    let least : Exponent := ⟨'e', some '-', "2147483648".toList⟩
    let past : Exponent := ⟨'e', none, "2147483648".toList⟩
    (least.Formed ∧ least.value = -2147483648 ∧ least.text = "e-2147483648".toList ∧
      number.Yields "1e-2147483648".toList none) ∧
    past.Formed ∧ past.value = 2147483648 ∧ past.text = "e2147483648".toList ∧
      ∃ x, number.Yields "1.5e2147483648".toList (some ⟨"e2147483648".toList, [x]⟩) := by
  intro least past
  have leastFormed : least.Formed :=
    ⟨.inl rfl, by simp [least], List.cons_ne_nil _ _, List.all_eq_true.mp rfl⟩
  have pastFormed : past.Formed :=
    ⟨.inl rfl, by simp [past], List.cons_ne_nil _ _, List.all_eq_true.mp rfl⟩
  have refused : scan "1e-2147483648".toList = none := rfl
  have left : scan "1.5e2147483648".toList =
    some (⟨false, ['1'], some ['5'], none⟩, "e2147483648".toList) := rfl
  exact ⟨⟨leastFormed, rfl, rfl, scanMisses refused⟩, pastFormed, rfl, rfl, _, scanYields left⟩

end FloatLiteral
end Descent
