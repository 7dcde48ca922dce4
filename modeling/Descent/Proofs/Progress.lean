import Descent.Proofs.Leftover
/-!
Parsers that answer, and how far their matches get. A parser advances by a number when it never stops
and each of its matches uses up at least so many scalars. A repetition answers when its body advances
by one; the premade parsers, which are no functions of the user's, all advance by one.
-/
namespace Descent

namespace Parser
open Language (Takes)

variable {α β : Type} {n k j : Nat} {p : Parser α} {ps : List (Parser α)}

def Advances (n k : Nat) (p : Parser α) : Prop :=
  p.Reads (fun _ => False) n fun w _ => k ≤ w.length

theorem Reads.advances {L : Language α} (reads : p.Reads (fun _ => False) n L) (long : Takes k L) :
    p.Advances n k :=
  readsMono reads long

theorem advancesLess {m i : Nat} (advances : p.Advances n k) (shorter : m ≤ n) (fewer : i ≤ k) :
    p.Advances m i := fun input short =>
  readsMono advances (fun _ _ far => Nat.le_trans fewer far) input (Nat.le_trans short shorter)

theorem advancesAny (advances : p.Advances n k) : p.Advances n 0 :=
  advancesLess advances (Nat.le_refl n) (Nat.zero_le k)

theorem advancesAnswers (advances : p.Advances n k) {input : Text} (short : input.length ≤ n) :
    ∃ found, (p input).ending = .ok found := by
  obtain ⟨found, ended, -⟩ := Run.endsTotal (advances input short)
  exact ⟨found, ended⟩

theorem anyCharAdvances : anyChar.Advances n 1 :=
  readsAnyChar.advances fun w _ word => by
    obtain ⟨c, rfl, -⟩ := word
    exact Nat.le_refl 1

theorem literalAdvances (expected : String) : (literal expected).Advances n 1 :=
  (readsLiteral expected).advances fun w _ word => by
    obtain ⟨some, rfl, -⟩ := word
    exact List.length_pos_iff.mpr fun none => some (String.toList_eq_nil_iff.mp none)

theorem failAdvances : (fail : Parser α).Advances n k := readsFail

theorem succeedAdvances : (succeed : Parser α).Advances n 0 :=
  readsSucceed.advances (Language.takesNone _)

theorem atEndAdvances : (atEnd : Parser α).Advances n 0 := readsAtEnd.advances (Language.takesNone _)

theorem takeAdvances (k : Nat) : (take k).Advances n k :=
  (readsTake k).advances fun _ _ word => Nat.le_of_eq word.1.symm

theorem choiceAdvances (members : ∀ p ∈ ps, p.Advances n k) : (choice ps).Advances n k :=
  readsChoice members

theorem sequenceNilAdvances : (sequence ([] : List (Parser α))).Advances n 0 :=
  readsSequenceNil.advances (Language.takesNone _)

theorem sequenceAdvances (first : p.Advances n k)
    (others : k ≤ n → (sequence ps).Advances (n - k) j) : (sequence (p :: ps)).Advances n (k + j) :=
  (readsSequence first (fun _ _ => id) others).advances fun w _ word => by
    obtain ⟨u, v, -, -, rfl, -, far, further⟩ := word
    rw [List.length_append]
    exact Nat.add_le_add far further

theorem sequenceAnswers (members : ∀ p ∈ ps, p.Advances n 0) : (sequence ps).Advances n 0 := by
  induction ps with
  | nil => exact sequenceNilAdvances
  | cons p ps ih =>
    obtain ⟨first, others⟩ := List.forall_mem_cons.mp members
    exact sequenceAdvances first fun _ => ih others

theorem sequenceAdvancesBy (members : ∀ p ∈ ps, p.Advances n 0) (inside : p ∈ ps)
    (far : p.Advances n k) : (sequence ps).Advances n k := by
  induction ps with
  | nil => contradiction
  | cons q ps ih =>
    obtain ⟨first, others⟩ := List.forall_mem_cons.mp members
    rcases List.mem_cons.mp inside with rfl | later
    · have rest := sequenceAnswers others
      exact sequenceAdvances far fun _ => advancesLess rest (Nat.sub_le n k) (Nat.le_refl 0)
    · exact advancesLess (sequenceAdvances first fun _ => ih others later) (Nat.le_refl n)
        (Nat.le_of_eq (Nat.zero_add k).symm)

theorem sequenceAdvancesFirst (far : p.Advances n k) (others : ∀ q ∈ ps, q.Advances n 0) :
    (sequence (p :: ps)).Advances n k :=
  sequenceAdvancesBy (List.forall_mem_cons.mpr
    ⟨advancesLess far (Nat.le_refl n) (Nat.zero_le k), others⟩) List.mem_cons_self far

theorem sequenceAdvancesAll (members : ∀ q ∈ p :: ps, q.Advances n k) :
    (sequence (p :: ps)).Advances n k :=
  sequenceAdvancesBy (fun q inside => advancesAny (members q inside)) List.mem_cons_self
    (members p List.mem_cons_self)

theorem manyAdvances (progress : p.Advances n 1) : (many p).Advances n 0 :=
  (readsMany progress (.inr fun _ _ => id)).advances (Language.takesNone _)

theorem many1Advances (progress : p.Advances n 1) : (many1 p).Advances n 1 :=
  sequenceAdvancesFirst progress (List.forall_mem_singleton.mpr (manyAdvances progress))

theorem mapAllAdvances? {f : List α → Option (List β)} (advances : p.Advances n k) :
    (mapAll? f p).Advances n k :=
  (readsMapAll? advances).advances fun _ _ word => word.choose_spec.1

theorem mapAllAdvances {f : List α → List β} (advances : p.Advances n k) :
    (mapAll f p).Advances n k :=
  (readsMapAll advances).advances fun _ _ word => word.choose_spec.1

theorem mapAdvances {f : α → β} (advances : p.Advances n k) : (map f p).Advances n k :=
  mapAllAdvances advances

theorem skipAdvances (advances : p.Advances n k) : (skip p : Parser β).Advances n k :=
  mapAllAdvances advances

theorem wholeAdvances (advances : p.Advances n k) : (whole p).Advances n k := readsWhole advances

theorem notAheadAdvances (advances : p.Advances n k) : (notAhead p : Parser β).Advances n 0 :=
  (readsNotAhead advances).advances (Language.takesNone _)

theorem tracedAdvances (label : String) (advances : p.Advances n k) :
    (traced label p).Advances n k :=
  readsTraced label advances

theorem betweenAdvances {γ δ : Type} {left : Parser γ} {right : Parser δ} {i : Nat}
    (first : left.Advances n i) (middle : i ≤ n → p.Advances (n - i) j)
    (last : i ≤ n → j ≤ n - i → right.Advances (n - i - j) k) :
    (between left p right).Advances n (i + (j + k)) :=
  sequenceAdvances (skipAdvances first) fun room => sequenceAdvances (middle room) fun more =>
    sequenceAdvances (skipAdvances (last room more)) fun _ => sequenceNilAdvances

theorem blockAdvances (ofChar : Char → α) {start terminator escape : Parser α}
    (first : start.Advances n k) (second : k ≤ n → terminator.Advances (n - k) j)
    (third : k ≤ n → escape.Advances (n - k) 1) :
    (block ofChar start terminator escape).Advances n (k + j) := by
  refine sequenceAdvances first fun room => ?_
  -- A piece is an escape or a scalar, so it takes one scalar at least.
  have plain : (sequence [notAhead terminator, map ofChar anyChar]).Advances (n - k) 1 :=
    sequenceAdvances (notAheadAdvances (second room)) fun _ =>
      sequenceAdvances (mapAdvances anyCharAdvances) fun _ => sequenceNilAdvances
  have piece : (content ofChar terminator escape).Advances (n - k) 1 :=
    choiceAdvances (by simp [third room, plain])
  have rest := sequenceAdvances (manyAdvances piece) fun _ =>
    sequenceAdvances (second room) fun _ => sequenceNilAdvances
  exact advancesLess rest (Nat.le_refl _) (by omega)

end Parser

namespace Numeral
open Descent.Parser

variable {n : Nat}

theorem digitOfAdvances (written : List (String × Nat)) : (digitOf written).Advances n 1 :=
  choiceAdvances fun p inside => by
    obtain ⟨d, -, rfl⟩ := List.mem_map.mp inside
    exact mapAdvances (literalAdvances d.1)

theorem hexDigitAdvances : hexDigit.Advances n 1 := by
  have letters : (choice (hexLetters.map literal)).Advances n 1 := choiceAdvances fun p inside => by
    obtain ⟨letter, -, rfl⟩ := List.mem_map.mp inside
    exact literalAdvances letter
  exact choiceAdvances (List.forall_mem_cons.mpr
    ⟨digitOfAdvances _, List.forall_mem_singleton.mpr (mapAdvances letters)⟩)

theorem canonicalDigitsAdvances : canonicalDigits.Advances n 1 := by
  have longer : (sequence [digitOf (decimals.drop 1), many decimalDigit]).Advances n 1 :=
    sequenceAdvancesFirst (digitOfAdvances _)
      (List.forall_mem_singleton.mpr (manyAdvances (digitOfAdvances _)))
  exact choiceAdvances (List.forall_mem_cons.mpr
    ⟨longer, List.forall_mem_singleton.mpr (digitOfAdvances _)⟩)

theorem boundedAdvances (base bound : Nat) {digits : Parser Nat} (advances : digits.Advances n 1) :
    (bounded base bound digits).Advances n 1 :=
  mapAllAdvances? advances

theorem wordAdvances (base : Nat) {digits : Parser Nat} (advances : digits.Advances n 1) :
    (word base digits).Advances n 1 :=
  mapAdvances (boundedAdvances base _ advances)

end Numeral

namespace FloatLiteral
open Descent.Parser Descent.Numeral

variable {n : Nat}

theorem exponentPartAdvances : exponentPart.Advances n 1 := by
  have digits : exponentDigits.Advances n 1 :=
    mapAdvances (boundedAdvances 10 _ (many1Advances (digitOfAdvances _)))
  have marked : ∀ mark, (sequence [skip (literal mark), exponentDigits]).Advances n 1 := fun mark =>
    sequenceAdvancesAll (by simp [skipAdvances, literalAdvances, digits])
  have signed : signedExponent.Advances n 1 :=
    choiceAdvances (by simp [digits, mapAdvances, marked])
  exact sequenceAdvancesAll (by
    simp [skipAdvances, choiceAdvances, literalAdvances, mapAdvances, signed])

theorem numberAdvances : number.Advances n 1 := by
  have whole : integerPart.Advances n 1 := mapAdvances (mapAllAdvances canonicalDigitsAdvances)
  have places : fractionPart.Advances n 1 :=
    mapAdvances (mapAllAdvances (many1Advances (digitOfAdvances _)))
  have dot : point.Advances n 1 := skipAdvances (literalAdvances _)
  have decimal : pointed.Advances n 1 :=
    choiceAdvances (by simp [sequenceAdvancesAll, whole, places, dot])
  have unsigned : unsignedParts.Advances n 1 := choiceAdvances (by
    simp [sequenceAdvancesAll, choiceAdvances, exponentPartAdvances, decimal, whole])
  have minus : sign.Advances n 0 := choiceAdvances (by
    simp [mapAdvances, advancesAny (literalAdvances _), succeedAdvances])
  exact mapAllAdvances? (mapAllAdvances (sequenceAdvancesBy
    (by simp [minus, advancesAny unsigned]) (by simp) unsigned))

end FloatLiteral

namespace Blank
open Descent.Parser

variable {n : Nat}

theorem eolAdvances : eol.Advances n 1 := choiceAdvances (by simp [literalAdvances])

theorem spacesAdvances : spaces.Advances n 1 :=
  many1Advances (choiceAdvances (by simp [literalAdvances]))

theorem whitespaceAdvances : whitespace.Advances n 1 :=
  many1Advances (choiceAdvances (by simp [spacesAdvances, eolAdvances]))

end Blank

namespace Json
open Descent.Parser

variable {n : Nat}

theorem Number.parserAdvances : Number.parser.Advances n 1 := by
  have digits : (many1 (mapAll? Number.digit? anyChar)).Advances n 1 :=
    many1Advances (mapAllAdvances? anyCharAdvances)
  have minus : Number.sign.Advances n 0 := choiceAdvances (by
    simp [mapAdvances, advancesAny (literalAdvances _), succeedAdvances])
  have int : Numeral.int.Advances n 1 := Numeral.wordAdvances 10 Numeral.canonicalDigitsAdvances
  have negative : Number.negative.Advances n 1 :=
    mapAdvances (sequenceAdvancesAll (by simp [skipAdvances, literalAdvances, int]))
  have large : Number.large.Advances n 1 := mapAllAdvances? (sequenceAdvancesBy
    (by simp [minus, advancesAny digits]) (by simp) digits)
  exact choiceAdvances (by
    simp [Number.floating, Number.plain, mapAllAdvances?, mapAdvances, FloatLiteral.numberAdvances,
      int, negative, large])

theorem Quoted.parserAdvances : Quoted.parser.Advances n 1 := by
  have hex : Quoted.hexDigit.Advances n 1 := mapAllAdvances? anyCharAdvances
  have unit : Quoted.codeUnit.Advances n 1 :=
    sequenceAdvancesFirst (skipAdvances (literalAdvances _)) (List.forall_mem_singleton.mpr
      (mapAllAdvances (sequenceAnswers (by simp [advancesAny hex]))))
  have unicode : Quoted.unicode.Advances n 1 := mapAllAdvances? (many1Advances unit)
  have letters : (choice (Quoted.simpleEscapes.map fun e => map (fun _ => e.2) (literal e.1))).Advances
      n 1 := choiceAdvances fun p inside => by
    obtain ⟨e, -, rfl⟩ := List.mem_map.mp inside
    exact mapAdvances (literalAdvances e.1)
  have simple : Quoted.simple.Advances n 1 :=
    sequenceAdvancesFirst (skipAdvances (literalAdvances _))
      (List.forall_mem_singleton.mpr (advancesAny letters))
  have barred : (choice (Quoted.forbidden.map fun c => literal c.toString)).Advances n 1 :=
    choiceAdvances fun p inside => by
      obtain ⟨c, -, rfl⟩ := List.mem_map.mp inside
      exact literalAdvances _
  have plain : Quoted.plain.Advances n 1 :=
    advancesLess (sequenceAdvances (notAheadAdvances barred) fun _ =>
      sequenceAdvancesAll (List.forall_mem_singleton.mpr anyCharAdvances)) (Nat.le_refl n)
      (Nat.le_refl 1)
  have content : Quoted.content.Advances n 0 :=
    manyAdvances (choiceAdvances (by simp [unicode, simple, plain]))
  exact mapAllAdvances (advancesLess (betweenAdvances (literalAdvances _)
    (fun _ => advancesLess content (Nat.sub_le ..) (Nat.le_refl 0))
    fun _ _ => literalAdvances _) (Nat.le_refl n) (Nat.le_add_right 1 _))

end Json

theorem Premade.parserAdvances {n : Nat} (p : Premade) : p.parser.Advances n 1 := by
  open Descent.Parser Descent.Numeral in
  cases p with
  | int => exact mapAdvances (wordAdvances 10 canonicalDigitsAdvances)
  | binary => exact mapAdvances (wordAdvances 2 (many1Advances (digitOfAdvances _)))
  | octal => exact mapAdvances (wordAdvances 8 (many1Advances (digitOfAdvances _)))
  | hex => exact mapAdvances (wordAdvances 16 (many1Advances hexDigitAdvances))
  | float => exact mapAdvances FloatLiteral.numberAdvances
  | eol => exact mapAdvances Blank.eolAdvances
  | spaces => exact mapAdvances Blank.spacesAdvances
  | whitespace => exact mapAdvances Blank.whitespaceAdvances
  | jsonNumber => exact Json.Number.parserAdvances
  | jsonString => exact mapAdvances Json.Quoted.parserAdvances

end Descent
