import Descent.Proofs.Json.Decode
/-!
Standard JSON texts. Their numbers have digits on both sides of a point, and everything else about
them is as in the texts that are decoded. The exponent of a number is read with 32 bits, so a text
with a larger one is refused, even where the number is zero.
-/
namespace Descent
open Numeral (Canonical decimal)

structure Spelling.Standard (s : Spelling) : Prop where
  integer : Canonical s.integer
  fraction : ∀ f ∈ s.fraction, f ≠ [] ∧ ∀ c ∈ f, c.isDigit = true
  exponent : ∀ e ∈ s.exponent, e.Formed

theorem standardLenient {s : Spelling} (standard : s.Standard) : s.Lenient := by
  refine ⟨.inl standard.integer, ?_, standard.exponent⟩
  unfold Spelling.places
  cases fraction : s.fraction with
  | none => exact List.forall_mem_nil _
  | some f => exact (standard.fraction f fraction).2

namespace Json
open Number (SpelledBy Spells)
open Text (Apart)
open Blank (isBlank)
open Descent.Parser (Yields unrolled)

section Fewer

variable {α : Type} {p q : Text → α → Prop}

theorem paddedWider {t : Text} {a : α} (padded : Padded p t a)
    (wider : ∀ u, u.length ≤ t.length → p u a → q u a) : Padded q t a := by
  obtain ⟨left, inner, right⟩ := padded
  exact .mk left (wider _ (by grind) inner) right

theorem separatedWider {t : Text} {as : List α} (items : Separated p t as)
    (wider : ∀ u a, u.length ≤ t.length → p u a → q u a) : Separated q t as := by
  induction items with
  | last only => exact .last (wider _ _ (Nat.le_refl _) only)
  | more first _ ih =>
    exact .more (wider _ _ (by simp) first) (ih fun u a short => wider u a (by grind))

theorem memberWider {p q : Text → Value → Prop} {t : Text} {member : String × Value}
    (given : Member p t member) (wider : ∀ u v, u.length ≤ t.length → p u v → q u v) :
    Member q t member := by
  obtain ⟨name, inner⟩ := given
  exact .mk name (wider _ _ (by grind) inner)

end Fewer

theorem coreWider {p q : Text → Value → Prop} (wider : ∀ t v, p t v → q t v) {t : Text} {v : Value}
    (core : Core p t v) : Core q t v := by
  induction size : t.length using Nat.strongRecOn generalizing t v with
  | ind _ ih => ?_
  subst size
  have inner (u : Text) (w : Value) (shorter : u.length < t.length) (padded : Padded (Core p) u w) :
      Padded (Core q) u w :=
    paddedWider padded fun u' short core => ih u'.length (by omega) core rfl
  cases core with
  | true => exact .true
  | false => exact .false
  | null => exact .null
  | number spelled => exact .number (wider _ _ spelled)
  | string quoted => exact .string quoted
  | emptyList blank => exact .emptyList blank
  | list items =>
    exact .list (separatedWider items fun u w short => inner u w (by grind))
  | emptyObject blank => exact .emptyObject blank
  | object given kept =>
    refine .object (separatedWider given fun u member short said => ?_) kept
    exact memberWider said fun u' w short' => inner u' w (by grind)

theorem writtenWider {p q : Text → Value → Prop} (wider : ∀ t v, p t v → q t v) {t : Text} {v : Value}
    (written : Written p t v) : Written q t v :=
  paddedWider written fun _ _ => coreWider wider

theorem coreWritten {number : Text → Value → Prop} {t : Text} {v : Value} (core : Core number t v) :
    Written number t v := by
  have nothing : Blanks [] := List.forall_mem_nil _
  have padded : Written number ([] ++ (t ++ [])) v := .mk nothing core nothing
  rwa [List.nil_append, List.append_nil] at padded

theorem spelledWritten {form : Spelling → Prop} {s : Spelling} {v : Value} (formed : form s)
    (denotes : s.Denotes v) : Written (SpelledBy form) s.text v :=
  coreWritten (.number ⟨s, rfl, formed, denotes⟩)

/-- Every standard text is decoded to its value, as long as every exponent has a magnitude below 2^31. An
exponent beyond 32 bits is no match of a number. The least exponent of 32 bits is left out as well: its
magnitude is read before its sign and does not fit. -/
theorem decodesStandardTexts {input : Text} {v : Value}
    (written : Written (SpelledBy fun s => s.Standard ∧ s.Bounded) input v) :
    (decode input).ending = .ok (.ok v) :=
  decodeAccepts (writtenWider (fun _ _ said => by
    obtain ⟨s, same, ⟨standard, bounded⟩, denotes⟩ := said
    exact ⟨s, same, ⟨standardLenient standard, bounded⟩, denotes⟩) written)

theorem integralStandard (negative : Bool) {i : Text} (canonical : Canonical i) :
    (Spelling.mk negative i none none).Standard ∧ (Spelling.mk negative i none none).Bounded :=
  ⟨⟨canonical, by simp, by simp⟩, by simp [Spelling.Bounded]⟩

theorem decodesStandardList :
    Written (SpelledBy fun s => s.Standard ∧ s.Bounded) ['[', '1', ',', '-', '0', ']']
        (.list [.unsigned 1, .float ⟨0x8000000000000000⟩]) ∧
      (decode ['[', '1', ',', '-', '0', ']']).ending =
        .ok (.ok (.list [.unsigned 1, .float ⟨0x8000000000000000⟩])) := by
  have one : Spelling.Denotes ⟨false, ['1'], none, none⟩ (.unsigned 1) :=
    .unsigned ⟨⟨rfl, rfl⟩, by decide⟩ rfl rfl
  have rounds : Binary64.Rounds true (Spelling.magnitude ⟨true, ['0'], none, none⟩)
      ⟨0x8000000000000000⟩ := by
    have digits : decimal ['0'] = 0 := rfl
    rw [Number.integralMagnitude, digits, Nat.cast_zero]
    exact Binary64.ofMagnitudeRounds true Binary64.zeroNearest
  have zero : Spelling.Denotes ⟨true, ['0'], none, none⟩ (.float ⟨0x8000000000000000⟩) :=
    .float (fun fits => absurd fits.2 (by decide)) rounds rfl
  have canonical : Canonical ['1'] := .more rfl (by decide) (List.forall_mem_nil _)
  have first := @spelledWritten (fun s => s.Standard ∧ s.Bounded) _ _
    (integralStandard false canonical) one
  have second := @spelledWritten (fun s => s.Standard ∧ s.Bounded) _ _
    (integralStandard true .zero) zero
  have written := coreWritten (.list (.more first (.last second)))
  exact ⟨written, decodesStandardTexts written⟩

theorem numberYields (value : Parser Value) {c : Char} {u rest : Text} {v : Value}
    (begins : beginsNumber c = true) (number : Number.ahead (c :: u) = some ⟨rest, [v]⟩)
    (stop : Apart isBlank rest) : (valueParser value).Yields (c :: u) (some ⟨rest, [v]⟩) := by
  have here : Number.parser.Yields (c :: u) (some ⟨rest, [v]⟩) := number ▸ Number.parserComputes _
  have kind := @kindYields value _ c u _ 3 rfl begins here
  obtain ⟨w, _, splits, -⟩ := Number.aheadSpells number
  have nothing : Blanks [] := List.forall_mem_nil _
  have noBlank : Apart isBlank (c :: u) := Text.apartCons.mpr (numberNoBlank begins)
  rw [splits] at kind noBlank ⊢
  have padded := paddedYields nothing nothing noBlank stop kind
  rwa [List.nil_append, List.append_nil] at padded

theorem zeroWithLargeExponentRefused :
    Written (SpelledBy Spelling.Standard) ['0', 'e', '2', '1', '4', '7', '4', '8', '3', '6', '4', '8']
        (.float ⟨0⟩) ∧
      (decode ['0', 'e', '2', '1', '4', '7', '4', '8', '3', '6', '4', '8']).ending =
        .ok (.error (.parse (.trailingInput 1 11))) := by
  constructor
  · let spelling : Spelling := ⟨false, ['0'], none,
      some ⟨'e', none, ['2', '1', '4', '7', '4', '8', '3', '6', '4', '8']⟩⟩
    have zero : spelling.magnitude = 0 := by
      have digits : spelling.significand = 0 := rfl
      rw [Spelling.magnitude, digits, Nat.cast_zero, zero_mul]
    have standard : spelling.Standard := by
      refine ⟨.zero, by simp [spelling], fun e given => ?_⟩
      cases given
      exact ⟨.inl rfl, by simp, List.cons_ne_nil _ _, List.all_eq_true.mp rfl⟩
    have rounds : Binary64.Rounds false spelling.magnitude ⟨0⟩ := by
      rw [zero]
      exact Binary64.ofMagnitudeRounds false Binary64.zeroNearest
    exact spelledWritten standard (.float (fun fits => Option.some_ne_none _ fits.1.2) rounds rfl)
  · have number : Number.ahead ['0', 'e', '2', '1', '4', '7', '4', '8', '3', '6', '4', '8'] =
        some ⟨['e', '2', '1', '4', '7', '4', '8', '3', '6', '4', '8'], [.unsigned 0]⟩ := rfl
    have read : value.parser.Yields _ _ := (congrArg Run.ending (valueUnrolled _)).trans
      (numberYields _ rfl number (Text.apartCons.mpr rfl))
    rw [decodeEnding read]
    rfl

end Json
end Descent
