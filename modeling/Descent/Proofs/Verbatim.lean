import Descent.Proofs.Words
import Descent.Parens
/-!
Grammars that say what they read. Where every leaf produces the text that it uses up, and no value is
dropped, changed in its text or made anew, the produced values say the used text, scalar by scalar and
in order: of what was tried and given up nothing is left in them.
-/
namespace Descent

namespace Language

def spelled {α : Type} (written : α → Text) : Language α := fun w values => values.flatMap written = w

theorem spelledJoins {α : Type} (written : α → Text) : (spelled written).Joins where
  empty := rfl
  join {w u values others} first second := by
    have before : values.flatMap written = w := first
    have after : others.flatMap written = u := second
    rw [spelled, List.flatMap_append, before, after]

end Language

namespace Parser
open Language (spelled spelledJoins)

variable {α β : Type} {p : Parser α} {ps : List (Parser α)} {written : α → Text}

def Says (written : α → Text) (p : Parser α) : Prop := p.Within (fun _ => True) (spelled written)

theorem anyCharSays : anyChar.Says fun c => [c] := by
  refine fun n => readsMono readsAnyChar ?_
  rintro _ _ ⟨c, rfl, rfl⟩
  rfl

theorem literalSays (expected : String) : (literal expected).Says String.toList := by
  refine fun n => readsMono (readsLiteral expected) ?_
  rintro _ _ ⟨-, rfl, rfl⟩
  exact List.append_nil _

theorem takeSays (k : Nat) : (take k).Says String.toList := by
  refine fun n => readsMono (readsTake k) ?_
  rintro w _ ⟨-, rfl⟩
  simp [spelled]

theorem choiceSays (members : ∀ p ∈ ps, p.Says written) : (choice ps).Says written :=
  choiceWithin members

theorem many1Says (one : p.Says written) : (many1 p).Says written := by
  have more : (many p).Says written := manyWithin (spelledJoins written) trivial one
  exact sequenceWithin (spelledJoins written)
    (List.forall_mem_cons.mpr ⟨one, List.forall_mem_singleton.mpr more⟩)

theorem mapSays {written' : β → Text} {f : α → β} (same : ∀ a, written' (f a) = written a)
    (original : p.Says written) : (map f p).Says written' := by
  refine fun n => readsMono (readsMap (original n)) ?_
  rintro w values ⟨originals, word, made⟩
  cases Option.some.inj made
  rw [spelled, List.flatMap_map, funext same]
  exact word

end Parser

namespace Blank
open Descent.Parser (choiceSays literalSays many1Says)

theorem eolSays : eol.Says String.toList := choiceSays (by simp [literalSays])

theorem spacesSays : spaces.Says String.toList := many1Says (choiceSays (by simp [literalSays]))

theorem whitespaceSays : whitespace.Says String.toList :=
  many1Says (choiceSays (by simp [spacesSays, eolSays]))

end Blank

namespace Value

def letters (v : Value) : Text := v.text.toList

theorem textOfItemsToList (values : List Value) :
    (textOfItems values).toList = values.flatMap letters := by
  induction values with
  | nil => rfl
  | cons v vs ih => rw [textOfItems, String.toList_append, ih, List.flatMap_cons, letters]

end Value

def Leaf.Verbatim : Leaf → Prop
  | .premade p => p = .eol ∨ p = .spaces ∨ p = .whitespace
  | .custom look => ∀ input m, look input = some m →
    (Value.textOfItems m.produced).toList ++ m.rest = input
  | _ => True

def Wrapper.Verbatim : Wrapper → Prop
  | .many | .many1 | .notAhead | .whole | .traced _ | .times _ => True
  | .map f => ∀ v, (f v).text = v.text
  | .mapAll _ | .mapAll? _ | .fold _ _ | .fold? _ _ | .skip => False

namespace Grammar
open Language (spelled spelledJoins nothing)
open Descent.Parser (Says)

theorem leafSays (l : Leaf) (own : l.Verbatim) : l.parser.Says Value.letters := by
  have text (s : String) : (Value.string s).letters = s.toList := rfl
  have empty : ∀ w (values : List Value), nothing w values → spelled Value.letters w values :=
    Language.joinsNothing (spelledJoins _)
  cases l with
  | anyChar => exact Parser.mapSays (fun c => by simp [Value.letters, Value.text]) Parser.anyCharSays
  | literal expected => exact Parser.mapSays text (Parser.literalSays expected)
  | fail => exact fun _ => Parser.readsFail
  | succeed => exact fun _ => Parser.readsMono Parser.readsSucceed empty
  | atEnd => exact fun _ => Parser.readsMono Parser.readsAtEnd empty
  | take k => exact Parser.mapSays text (Parser.takeSays k)
  | premade p =>
    rcases own with rfl | rfl | rfl
    · exact Parser.mapSays text Blank.eolSays
    · exact Parser.mapSays text Blank.spacesSays
    · exact Parser.mapSays text Blank.whitespaceSays
  | custom look =>
    refine fun n input _ => Run.endsPure fun m found => ⟨_, (own input m found).symm, ?_⟩
    exact (Value.textOfItemsToList m.produced).symm

theorem verbatimKeeps (w : Wrapper) (own : w.Verbatim) : w.Keeps (spelled Value.letters) := by
  cases w with
  | map f =>
    intro w values word
    have same : (fun v => (f v).letters) = Value.letters :=
      funext fun v => congrArg String.toList (own v)
    rw [spelled, List.flatMap_map, same]
    exact word
  | many => trivial
  | many1 => trivial
  | notAhead => trivial
  | whole => trivial
  | traced => trivial
  | times => trivial
  | mapAll => exact own.elim
  | mapAll? => exact own.elim
  | fold => exact own.elim
  | fold? => exact own.elim
  | skip => exact own.elim

theorem parensVerbatim : Parens.matcher.Made Leaf.Verbatim Wrapper.Verbatim :=
  ⟨fun _ => rfl, trivial, trivial, trivial⟩

theorem verbatimReading :
    Reading (fun _ => True) (spelled Value.letters) Leaf.Verbatim Wrapper.Verbatim where
  joins := spelledJoins _
  stalls := trivial
  exhausts := trivial
  scalar := trivial
  leaves := leafSays
  wrappers := verbatimKeeps

/-- Nothing is lost, nothing comes twice and nothing changes its place: the texts of the produced values,
one after the other, and what is left of the text are the text. -/
theorem textsAreTheInput {g : Grammar} (verbatim : g.Made Leaf.Verbatim Wrapper.Verbatim)
    (input : Text) :
    (∀ m, (g.parser input).ending = .ok (some m) →
      (Value.textOfItems m.produced).toList ++ m.rest = input) ∧
    ∀ values, (parseAll g.parser input).ending = .ok (.ok values) →
      (Value.textOfItems values).toList = input := by
  have splits : ∀ m, (g.parser input).ending = .ok (some m) →
      (Value.textOfItems m.produced).toList ++ m.rest = input := by
    intro m found
    have reads := parserWithin verbatimReading verbatim input.length input (Nat.le_refl _)
    obtain ⟨w, split, word⟩ := Run.endsResult reads found m rfl
    rw [Value.textOfItemsToList, show _ = w from word, split]
  refine ⟨splits, fun values whole => ?_⟩
  obtain ⟨m, found, used, rfl⟩ := parseAllMatches whole
  have split := splits m found
  rwa [used, List.append_nil] at split

theorem pairTextsAreTheInput :
    let pair : Grammar := .together [("pair", .choice [
      .sequence [literal "(", .ref "pair", literal "]"],
      .sequence [literal "(", .wrap .notAhead (literal ")"), .wrap (.traced "inner") (.ref "pair"),
        .leaf .anyChar],
      .leaf .anyChar, Parens.matcher])] (.ref "pair")
    pair.Made Leaf.Verbatim Wrapper.Verbatim ∧
    ∃ m, (pair.parser "(é)b".toList).ending = .ok (some m) ∧ m.produced.length = 3 ∧
      (Value.textOfItems m.produced).toList ++ m.rest = "(é)b".toList := by
  intro pair
  have verbatim : pair.Made Leaf.Verbatim Wrapper.Verbatim := by
    simp [pair, Made, MadeAll, MadeDefinitions, literal, Leaf.Verbatim, Wrapper.Verbatim, parensVerbatim]
  have found : (pair.parser "(é)b".toList).ending =
    .ok (some ⟨['b'], [.string "(", .char 'é', .char ')']⟩) := rfl
  exact ⟨verbatim, _, found, rfl, (textsAreTheInput verbatim _).1 _ found⟩

end Grammar
end Descent
