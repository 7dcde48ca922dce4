import Descent.Grammar
/-!
Parsers that are built without spans: of parsers that look at scalars, by choice, sequence, repetition,
lookahead, and changes to what a match produced. They write nothing to the journal. All premade parsers are
built so.
-/
namespace Descent

namespace Parser

variable {α β : Type} {p : Parser α} {ps : List (Parser α)}

inductive Plain : {α : Type} → Parser α → Prop
  | anyChar : Plain anyChar
  | literal (expected : String) : Plain (literal expected)
  | fail {α : Type} : Plain (fail : Parser α)
  | succeed {α : Type} : Plain (succeed : Parser α)
  | atEnd {α : Type} : Plain (atEnd : Parser α)
  | take (n : Nat) : Plain (take n)
  | choice {α : Type} {ps : List (Parser α)} (members : ∀ p ∈ ps, Plain p) : Plain (choice ps)
  | sequence {α : Type} {ps : List (Parser α)} (members : ∀ p ∈ ps, Plain p) : Plain (sequence ps)
  | many {α : Type} {p : Parser α} (one : Plain p) : Plain (many p)
  | mapAll? {α β : Type} (f : List α → Option (List β)) {p : Parser α} (original : Plain p) :
      Plain (mapAll? f p)
  | notAhead {α β : Type} {p : Parser α} (barred : Plain p) : Plain (notAhead p : Parser β)

theorem plainMapAll (f : List α → List β) (original : p.Plain) : (mapAll f p).Plain :=
  .mapAll? (some ∘ f) original

theorem plainMap (f : α → β) (original : p.Plain) : (map f p).Plain := plainMapAll (List.map f) original

theorem plainSkip (original : p.Plain) : (skip p : Parser β).Plain := plainMapAll _ original

theorem plainFold (f : α → β → β) (seed : β) (original : p.Plain) : (fold f seed p).Plain :=
  plainMapAll (fun values => [values.foldl (fun reduced value => f value reduced) seed]) original

theorem plainFold? (f : α → β → Option β) (seed : β) (original : p.Plain) : (fold? f seed p).Plain :=
  .mapAll? (fun values => (values.foldlM (fun reduced value => f value reduced) seed).map ([·])) original

theorem plainMany1 (one : p.Plain) : (many1 p).Plain := .sequence (by simp [one, Plain.many])

theorem plainBetween {γ δ : Type} {left : Parser γ} {right : Parser δ} (first : left.Plain)
    (middle : p.Plain) (last : right.Plain) : (between left p right).Plain :=
  .sequence (by simp [plainSkip, first, middle, last])

def Quiet (p : Parser α) : Prop := ∀ input, (p input).journal = []

theorem quietBind {r : Run α} {next : α → Run β} (first : r.journal = [])
    (rest : ∀ a, (next a).journal = []) : (r >>= next).journal = [] := by
  obtain ⟨journal, ending⟩ := r
  cases first
  cases ending with
  | error s => rfl
  | ok a => exact rest a

theorem choiceQuiet (members : ∀ p ∈ ps, p.Quiet) : (choice ps).Quiet := by
  intro input
  induction ps with
  | nil => rfl
  | cons p ps ih =>
    obtain ⟨first, others⟩ := List.forall_mem_cons.mp members
    refine quietBind (first input) fun found => ?_
    cases found with
    | none => exact ih others
    | some m => rfl

theorem sequenceQuiet (members : ∀ p ∈ ps, p.Quiet) : (sequence ps).Quiet := by
  induction ps with
  | nil => exact fun input => rfl
  | cons p ps ih =>
    intro input
    obtain ⟨first, others⟩ := List.forall_mem_cons.mp members
    refine quietBind (first input) fun found => ?_
    cases found with
    | none => rfl
    | some m =>
      refine quietBind (ih others m.rest) fun next => ?_
      cases next <;> rfl

theorem repeatedQuiet (quiet : p.Quiet) (input : Text) : (repeated p input).journal = [] := by
  induction size : input.byteLength using Nat.strongRecOn generalizing input with
  | ind _ ih => ?_
  subst size
  rw [repeated]
  refine quietBind (quiet input) fun found => ?_
  cases found with
  | none => rfl
  | some m =>
    dsimp only
    split
    · rename_i shrinks
      exact quietBind (ih _ shrinks m.rest rfl) fun n => rfl
    · rfl

theorem Plain.quiet (plain : p.Plain) : p.Quiet := by
  induction plain with
  | anyChar => exact fun input => by cases input <;> rfl
  | literal expected =>
    intro input
    simp only [Parser.literal]
    split <;> rfl
  | fail => exact fun input => rfl
  | succeed => exact fun input => rfl
  | atEnd => exact fun input => by cases input <;> rfl
  | take n =>
    intro input
    simp only [Parser.take]
    split <;> rfl
  | choice _ ih => exact choiceQuiet ih
  | sequence _ ih => exact sequenceQuiet ih
  | many _ ih => exact fun input => quietBind (repeatedQuiet ih input) fun m => rfl
  | mapAll? f _ ih => exact fun input => quietBind (ih input) fun found => rfl
  | notAhead _ ih => exact fun input => quietBind (ih input) fun found => by cases found <;> rfl

end Parser

namespace Numeral
open Descent.Parser

theorem digitOfPlain (written : List (String × Nat)) : (digitOf written).Plain :=
  .choice fun p inside => by
    obtain ⟨d, -, rfl⟩ := List.mem_map.mp inside
    exact plainMap _ (.literal d.1)

theorem hexDigitPlain : hexDigit.Plain := by
  have letters : (choice (hexLetters.map literal)).Plain := .choice fun p inside => by
    obtain ⟨letter, -, rfl⟩ := List.mem_map.mp inside
    exact .literal letter
  exact .choice (List.forall_mem_cons.mpr
    ⟨digitOfPlain _, List.forall_mem_singleton.mpr (plainMap _ letters)⟩)

theorem canonicalDigitsPlain : canonicalDigits.Plain := by
  have longer : (sequence [digitOf (decimals.drop 1), many decimalDigit]).Plain :=
    .sequence (by simp [digitOfPlain, Plain.many, decimalDigit])
  exact .choice (List.forall_mem_cons.mpr ⟨longer, List.forall_mem_singleton.mpr (digitOfPlain _)⟩)

theorem boundedPlain (base bound : Nat) {digits : Parser Nat} (plain : digits.Plain) :
    (bounded base bound digits).Plain :=
  plainFold? _ _ plain

theorem wordPlain (base : Nat) {digits : Parser Nat} (plain : digits.Plain) : (word base digits).Plain :=
  plainMap _ (boundedPlain base _ plain)

end Numeral

namespace FloatLiteral
open Descent.Parser Descent.Numeral

theorem exponentPartPlain : exponentPart.Plain := by
  have digits : exponentDigits.Plain := plainMap _ (boundedPlain 10 _ (plainMany1 (digitOfPlain _)))
  have marked : ∀ mark, (sequence [skip (literal mark), exponentDigits]).Plain := fun mark =>
    .sequence (by simp [plainSkip, Plain.literal, digits])
  have signed : signedExponent.Plain := .choice (by simp [digits, plainMap, marked])
  have letter : (choice [literal "e", literal "E"]).Plain := .choice (by simp [Plain.literal])
  exact .sequence (by simp [plainSkip letter, plainMap, signed])

theorem numberPlain : number.Plain := by
  have whole : integerPart.Plain := plainMap _ (plainMapAll _ canonicalDigitsPlain)
  have places : fractionPart.Plain := plainMap _ (plainMapAll _ (plainMany1 (digitOfPlain _)))
  have dot : point.Plain := plainSkip (.literal _)
  have decimal : pointed.Plain := .choice (by simp [Plain.sequence, whole, places, dot])
  have scaled : (choice [pointed, integerPart]).Plain := .choice (by simp [decimal, whole])
  have unsigned : unsignedParts.Plain :=
    .choice (by simp [Plain.sequence, scaled, exponentPartPlain, decimal])
  have minus : sign.Plain := .choice (by simp [plainMap, Plain.literal, Plain.succeed])
  exact .mapAll? _ (plainFold _ _ (.sequence (by simp [minus, unsigned])))

end FloatLiteral

namespace Blank
open Descent.Parser

theorem eolPlain : eol.Plain := .choice (by simp [Plain.literal])

theorem spacesPlain : spaces.Plain := plainMany1 (.choice (by simp [Plain.literal]))

theorem whitespacePlain : whitespace.Plain := plainMany1 (.choice (by simp [spacesPlain, eolPlain]))

end Blank

namespace Json
open Descent.Parser

theorem Number.parserPlain : Number.parser.Plain := by
  have digits : (many1 (mapAll? Number.digit? anyChar)).Plain := plainMany1 (.mapAll? _ .anyChar)
  have minus : Number.sign.Plain := .choice (by simp [plainMap, Plain.literal, Plain.succeed])
  have int : Numeral.int.Plain := Numeral.wordPlain 10 Numeral.canonicalDigitsPlain
  have negative : Number.negative.Plain :=
    plainMap _ (.sequence (by simp [plainSkip, Plain.literal, int]))
  have large : Number.large.Plain := .mapAll? _ (.sequence (by simp [minus, digits]))
  have floating : Number.floating.Plain := .mapAll? _ FloatLiteral.numberPlain
  exact .choice (by simp [floating, Number.plain, plainMap, int, negative, large])

theorem Quoted.parserPlain : Quoted.parser.Plain := by
  have hex : Quoted.hexDigit.Plain := .mapAll? _ .anyChar
  have four : (sequence (List.replicate 4 Quoted.hexDigit)).Plain :=
    .sequence fun _ inside => List.eq_of_mem_replicate inside ▸ hex
  have unit : Quoted.codeUnit.Plain := .sequence (List.forall_mem_cons.mpr
    ⟨plainSkip (.literal _), List.forall_mem_singleton.mpr (plainFold _ _ four)⟩)
  have unicode : Quoted.unicode.Plain := .mapAll? _ (plainMany1 unit)
  have letters : (choice (Quoted.simpleEscapes.map fun e => map (fun _ => e.2) (literal e.1))).Plain :=
    .choice fun p inside => by
      obtain ⟨e, -, rfl⟩ := List.mem_map.mp inside
      exact plainMap _ (.literal e.1)
  have simple : Quoted.simple.Plain := .sequence (List.forall_mem_cons.mpr
    ⟨plainSkip (.literal _), List.forall_mem_singleton.mpr letters⟩)
  have barred : (choice (Quoted.forbidden.map fun c => literal c.toString)).Plain :=
    .choice fun p inside => by
      obtain ⟨c, -, rfl⟩ := List.mem_map.mp inside
      exact .literal _
  have plain : Quoted.plain.Plain := .sequence (List.forall_mem_cons.mpr
    ⟨.notAhead barred, List.forall_mem_singleton.mpr .anyChar⟩)
  have content : Quoted.content.Plain := .many (.choice (by simp [unicode, simple, plain]))
  exact plainMapAll _ (plainBetween (.literal _) content (.literal _))

end Json

theorem Premade.parserPlain (p : Premade) : p.parser.Plain := by
  open Descent.Parser Descent.Numeral in
  cases p with
  | int => exact plainMap _ (wordPlain 10 canonicalDigitsPlain)
  | binary => exact plainMap _ (wordPlain 2 (plainMany1 (digitOfPlain _)))
  | octal => exact plainMap _ (wordPlain 8 (plainMany1 (digitOfPlain _)))
  | hex => exact plainMap _ (wordPlain 16 (plainMany1 hexDigitPlain))
  | float => exact plainMap _ FloatLiteral.numberPlain
  | eol => exact plainMap _ Blank.eolPlain
  | spaces => exact plainMap _ Blank.spacesPlain
  | whitespace => exact plainMap _ Blank.whitespacePlain
  | jsonNumber => exact Json.Number.parserPlain
  | jsonString => exact plainMap _ Json.Quoted.parserPlain

theorem Leaf.parserPlain (l : Leaf) : l.parser.Plain ∨ ∃ look, l = .custom look := by
  cases l with
  | anyChar => exact .inl (Parser.plainMap _ .anyChar)
  | literal expected => exact .inl (Parser.plainMap _ (.literal expected))
  | fail => exact .inl .fail
  | succeed => exact .inl .succeed
  | atEnd => exact .inl .atEnd
  | take n => exact .inl (Parser.plainMap _ (.take n))
  | premade p => exact .inl p.parserPlain
  | custom look => exact .inr ⟨look, rfl⟩

theorem Leaf.parserQuiet (l : Leaf) : l.parser.Quiet := by
  rcases l.parserPlain with plain | ⟨look, rfl⟩
  · exact plain.quiet
  · exact fun input => rfl

end Descent
