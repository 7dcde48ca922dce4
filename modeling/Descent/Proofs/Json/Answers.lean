import Descent.Proofs.Json.Decode
/-!
What running a value may answer: a match that used up some of the text and produced one value, or no
match. The run never stops, no number leaves its word, and the lists that objects are made of have a
string before every other value. Where decoding leaves something behind, the text before it is
decoded to the value that was found.
-/
namespace Descent.Json
open Grammar (literal)
open Descent.Parser (Yields choice sequence many map mapAll skip between unrolled)
open Blank (isBlank)
open Number (Spells)
open Text (Apart)

def alternates : List Value → Bool
  | [] => true
  | .string _ :: _ :: rest => alternates rest
  | _ => false

theorem alternatesMembers (members : List (String × Value)) :
    alternates (members.flatMap memberValues) = true := by
  induction members with
  | nil => rfl
  | cons member members ih => exact ih

theorem alternatesKept {values : List Value} (turns : alternates values = true) :
    (pairs values).flatMap memberValues = values := by
  fun_induction alternates values with
  | case1 => rfl
  | case2 key v rest ih => rw [pairs, List.flatMap_cons, ih turns]; rfl
  | case3 => contradiction

section Stray

variable (stray : List Value → List Value)

def objectMade (values : List Value) : List Value :=
  if alternates values then [.ofMembers (pairs values)] else stray values

def objectOr (value : Grammar) : Grammar :=
  .wrap (.mapAll (objectMade stray))
    (.between (literal "\x7b") (separated (member value)) (literal "\x7d"))

def valueOr : Grammar :=
  .recursive "value" (.between blank
    (.choice [keyword "true" (.bool true), keyword "false" (.bool false), keyword "null" .null,
      .leaf (.premade .jsonNumber), .leaf (.premade .jsonString), listOf (.ref "value"),
      objectOr stray (.ref "value")])
    blank)

def objectParserOr (value : Parser Value) : Parser Value :=
  mapAll (objectMade stray)
    (between (markParser "\x7b") (separatedParser (memberParser value)) (markParser "\x7d"))

def valueParserOr (value : Parser Value) : Parser Value :=
  between blankParser (choice ((coreParsers value).dropLast ++ [objectParserOr stray value]))
    blankParser

theorem valueOrUnrolled (input : Text) :
    (valueOr stray).parser input = unrolled (valueParserOr stray) (input.length + 2) input :=
  Store.parserUnrolled (valueParserOr stray) id (fun _ => rfl) (fun _ => rfl) List.mem_cons_self input

theorem objectParserOrSame (depth : Nat) : objectParserOr stray (unrolled valueParser depth) =
    objectParser (unrolled valueParser depth) := by
  funext input
  have inner : (unrolled valueParser depth).Reads (fun _ => True) (input.length - 1) _ :=
    unrolledReads (.inl trivial)
  have reads := closedReads '\x7b' '\x7d' fun _ => separatedReads (memberReads inner)
  refine Parser.refineAgrees reads (fun m w said => ?_) (Nat.le_refl _)
  have turns : alternates m.produced = true := by
    obtain ⟨t, -, ⟨members, -, same⟩ | ⟨-, same⟩⟩ := said
    · rw [same]
      exact alternatesMembers members
    · rw [same]
      rfl
  simp only [objectMade, if_pos turns]

theorem unrolledOrSame (depth : Nat) :
    unrolled (valueParserOr stray) depth = unrolled valueParser depth := by
  induction depth with
  | zero => rw [unrolled, unrolled]
  | succ depth ih =>
    have all (value : Parser Value) :
        (coreParsers value).dropLast ++ [objectParser value] = coreParsers value := rfl
    rw [unrolled, unrolled, ih, valueParserOr, objectParserOrSame, all, valueParser]

theorem strayUnmet (input : Text) : (valueOr stray).parser input = value.parser input := by
  rw [valueOrUnrolled, unrolledOrSame, valueUnrolled]

end Stray

theorem writtenFull {t : Text} {v : Value} (written : Written Spells t v) : 0 < t.length := by
  obtain ⟨left, core, right⟩ := written
  have full := coreFull core
  simp only [List.length_append]
  omega

theorem byteLengthPositive {t : Text} (full : 0 < t.length) : 1 ≤ t.byteLength :=
  Nat.le_trans full (Text.lengthLeByteLength t)

theorem negateNumber (magnitude : UInt64) : Number.negate magnitude ≠ .null := by
  rw [Number.negateWord]
  split <;> simp

/-- A value matches with one value and with less text left, or does not match. It never stops, and it
meets no number that is too large for its word; whatever an object would be of values that are not in
turn strings and values makes no difference to any run, and of those in turn none is dropped. -/
theorem valueAnswers (input : Text) :
    (∃ found, value.parser.Yields input found ∧
      ∀ m, found = some m → m.rest.byteLength < input.byteLength ∧ ∃ v, m.produced = [v]) ∧
    (∀ s, (decode input).ending ≠ .error s) ∧
    (∀ n, (decode input).ending ≠ .ok (.error (.notOneValue n))) ∧
    (∀ stray, (valueOr stray).parser input = value.parser input) ∧
    (∀ values, alternates values = true → (pairs values).flatMap memberValues = values) ∧
    (∀ magnitude, Number.negate magnitude ≠ .null) ∧
    Quoted.codeUnit = Quoted.checkedUnit ∧
    ∀ text m, FloatLiteral.signedExponent.Yields text (some m) →
      ∀ e ∈ m.produced, -2147483648 ≤ e ∧ e ≤ 2147483647 := by
  refine ⟨?_, fun s stopped => ?_, fun n several => ?_, fun stray => strayUnmet stray input,
    fun values => alternatesKept, negateNumber, Quoted.codeUnitChecked, fun text m =>
      FloatLiteral.exponentFits⟩
  · obtain ⟨found, read, words⟩ := valueParserReads input
    refine ⟨found, read, fun m same => ?_⟩
    obtain ⟨w, splits, v, written, produced⟩ := words m same
    have some := byteLengthPositive (writtenFull written)
    have bytes := Text.byteLengthAppend w m.rest
    rw [← splits] at bytes
    exact ⟨by omega, v, produced⟩
  · rcases decodeOutcome input with ⟨v, -, outcome⟩ | ⟨e, outcome⟩ <;> simp [outcome] at stopped
  · rcases decodeOutcome input with ⟨v, -, outcome⟩ | ⟨e, outcome⟩ <;> simp [outcome] at several

theorem blankSkipped (t : Text) :
    (skip blankParser : Parser Value).Yields t (some ⟨t.dropWhile isBlank, []⟩) :=
  Parser.skipYields (blankComputes t)

theorem paddedStops {core : Parser Value} {input : Text} {m : Match Value}
    (found : (between blankParser core blankParser).Yields input (some m)) :
    Apart isBlank m.rest := by
  obtain ⟨_, others, -, opened, rfl⟩ := Parser.sequenceSome found
  obtain ⟨inner, last, -, closed, rfl⟩ := Parser.sequenceSome opened
  have skipped : (sequence [skip blankParser]).Yields inner.rest _ :=
    Parser.sequenceStep (blankSkipped inner.rest) Parser.sequenceNil
  cases Except.ok.inj (closed.symm.trans skipped)
  exact Text.dropWhileApart _ _

theorem valueStops {input : Text} {m : Match Value} (found : value.parser.Yields input (some m)) :
    Apart isBlank m.rest := by
  unfold Yields at found
  rw [valueUnrolled] at found
  exact paddedStops found

/-- Decoding refuses a text for what is behind a value exactly if there is a value and something is
behind it. Blanks are not left behind, and the text up to there is decoded to that value. -/
theorem trailingTextFollowsAValue (input : Text) (offset remaining : Nat) :
    (decode input).ending = .ok (.error (.parse (.trailingInput offset remaining))) ↔
      ∃ used rest v, input = used ++ rest ∧ offset = used.byteLength ∧ remaining = rest.byteLength ∧
        1 ≤ offset ∧ 1 ≤ remaining ∧ offset + remaining = input.byteLength ∧ Apart isBlank rest ∧
        value.parser.Yields input (some ⟨rest, [v]⟩) ∧ (decode used).ending = .ok (.ok v) := by
  constructor
  · intro trailing
    obtain ⟨found, read, words⟩ := valueParserReads input
    rw [decodeEnding read] at trailing
    cases found with
    | none => simp at trailing
    | some m =>
      obtain ⟨used, splits, v, written, produced⟩ := words m rfl
      obtain ⟨rest, values⟩ := m
      cases produced
      have bytes := Text.byteLengthAppend used rest
      rw [← splits] at bytes
      by_cases nothing : rest = []
      · simp [nothing, single] at trailing
      · simp only [if_neg nothing, Except.ok.injEq, Except.error.injEq, DecodeError.parse.injEq,
          ParseError.trailingInput.injEq] at trailing
        have some := byteLengthPositive (writtenFull written)
        have left := byteLengthPositive (List.length_pos_of_ne_nil nothing)
        exact ⟨used, rest, v, splits, by omega, trailing.2.symm, by omega, by omega, by omega,
          valueStops read, read, decodeAccepts written⟩
  · rintro ⟨used, rest, v, rfl, rfl, rfl, -, left, -, -, read, -⟩
    have nothing : rest ≠ [] := by
      rintro rfl
      contradiction
    rw [decodeEnding read]
    simp only [if_neg nothing, Text.byteLengthAppend, Nat.add_sub_cancel]

end Descent.Json
