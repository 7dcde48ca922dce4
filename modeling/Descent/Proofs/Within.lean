import Descent.Proofs.Language
import Descent.Proofs.Plain
/-!
Parsers that read words of one language, on texts of every length. Where the empty word belongs to the
language and every two words joined, all that is built of such parsers reads words of it too.
-/
namespace Descent

namespace Language

variable {α : Type} {L : Language α}

structure Joins (L : Language α) : Prop where
  empty : L [] []
  join {w u values others} (first : L w values) (second : L u others) : L (w ++ u) (values ++ others)

theorem everyJoins : (every : Language α).Joins := ⟨trivial, fun _ _ => trivial⟩

theorem joinsStar (joins : L.Joins) {w : Text} {values : List α} (word : Star L w values) :
    L w values := by
  induction word with
  | done => exact joins.empty
  | more first _ ih => exact joins.join first ih

theorem joinsNothing (joins : L.Joins) (w : Text) (values : List α) (word : nothing w values) :
    L w values := by
  obtain ⟨rfl, rfl⟩ := word
  exact joins.empty

end Language

namespace Parser
open Language (Joins joinsStar joinsNothing)

variable {α : Type} {stopped : Stop → Prop} {L : Language α} {p : Parser α} {ps : List (Parser α)}

def Within (stopped : Stop → Prop) (L : Language α) (p : Parser α) : Prop :=
  ∀ n, p.Reads stopped n L

theorem choiceWithin (members : ∀ p ∈ ps, p.Within stopped L) : (choice ps).Within stopped L :=
  fun n => readsChoice fun p inside => members p inside n

theorem sequenceWithin (joins : L.Joins) (members : ∀ p ∈ ps, p.Within stopped L) :
    (sequence ps).Within stopped L := by
  refine fun n => readsSequenceClosed joins.empty ?_ fun p inside => members p inside n
  rintro _ _ ⟨w, u, values, others, rfl, rfl, first, second⟩
  exact joins.join first second

theorem manyWithin (joins : L.Joins) (stalls : stopped (.panic .stalledRepetition))
    (within : p.Within stopped L) : (many p).Within stopped L :=
  fun n => readsMono (readsMany (within n) (.inl stalls)) fun _ _ => joinsStar joins

theorem notAheadWithin {β : Type} {K : Language β} (joins : K.Joins) (within : p.Within stopped L) :
    (notAhead p).Within stopped K :=
  fun n => readsMono (readsNotAhead (within n)) (joinsNothing joins)

theorem mapAllWithin? {f : List α → Option (List α)}
    (keeps : ∀ w values made, L w values → f values = some made → L w made)
    (within : p.Within stopped L) : (mapAll? f p).Within stopped L := by
  refine fun n => readsMono (readsMapAll? (within n)) ?_
  rintro w made ⟨values, word, accepted⟩
  exact keeps w values made word accepted

theorem mapAllWithin {f : List α → List α} (keeps : ∀ w values, L w values → L w (f values))
    (within : p.Within stopped L) : (mapAll f p).Within stopped L := by
  refine fun n => readsMono (readsMapAll (within n)) ?_
  rintro w made ⟨values, word, same⟩
  exact Option.some.inj same ▸ keeps w values word

theorem skipWithin {β : Type} {K : Language β} (drops : ∀ w values, L w values → K w [])
    (within : p.Within stopped L) : (skip p : Parser β).Within stopped K := by
  refine fun n => readsMono (readsSkip (within n)) ?_
  rintro w values ⟨rfl, originals, word⟩
  exact drops w originals word

theorem betweenWithin (joins : L.Joins) (drops : ∀ w values, L w values → L w [])
    {left right : Parser α} (first : left.Within stopped L) (second : p.Within stopped L)
    (third : right.Within stopped L) : (between left p right).Within stopped L :=
  sequenceWithin joins (by simp [skipWithin drops first, second, skipWithin drops third])

theorem blockWithin (joins : L.Joins) (stalls : stopped (.panic .stalledRepetition))
    {ofChar : Char → α} {start terminator escape : Parser α}
    (scalar : (map ofChar anyChar).Within stopped L) (first : start.Within stopped L)
    (second : terminator.Within stopped L) (third : escape.Within stopped L) :
    (block ofChar start terminator escape).Within stopped L := by
  have plain : (sequence [notAhead terminator, map ofChar anyChar]).Within stopped L :=
    sequenceWithin joins (by simp [notAheadWithin joins second, scalar])
  have piece : (content ofChar terminator escape).Within stopped L :=
    choiceWithin (by simp [third, plain])
  exact sequenceWithin joins (by simp [first, manyWithin joins stalls piece, second])

end Parser

theorem Parser.Plain.withinEvery {α : Type} {stopped : Stop → Prop} {p : Parser α}
    (stalls : stopped (.panic .stalledRepetition)) (plain : p.Plain) :
    p.Within stopped Language.every := by
  have any {β : Type} {q : Parser β} {L : Language β} (reads : ∀ n, q.Reads stopped n L) :
      q.Within stopped Language.every := fun n => readsMono (reads n) fun _ _ _ => trivial
  induction plain with
  | anyChar => exact any fun _ => readsAnyChar
  | literal expected => exact any fun _ => readsLiteral expected
  | fail => exact fun _ => readsFail
  | succeed => exact any fun _ => readsSucceed
  | atEnd => exact any fun _ => readsAtEnd
  | take k => exact any fun _ => readsTake k
  | choice _ ih => exact choiceWithin ih
  | sequence _ ih => exact sequenceWithin Language.everyJoins ih
  | many _ ih => exact manyWithin Language.everyJoins stalls ih
  | mapAll? f _ ih => exact any fun n => readsMapAll? (ih n)
  | notAhead _ ih => exact notAheadWithin Language.everyJoins ih

def Wrapper.Keeps (L : Language Value) : Wrapper → Prop
  | .map f => ∀ w values, L w values → L w (values.map f)
  | .mapAll f => ∀ w values, L w values → L w (f values)
  | .mapAll? f => ∀ w values made, L w values → f values = some made → L w made
  | .fold f seed => ∀ w values, L w values →
    L w [values.foldl (fun reduced value => f value reduced) seed]
  | .fold? f seed => ∀ w values made, L w values →
    (values.foldlM (fun reduced value => f value reduced) seed).map ([·]) = some made → L w made
  | .skip => ∀ w values, L w values → L w []
  | _ => True

theorem Wrapper.keepsEvery (w : Wrapper) : w.Keeps Language.every := by
  cases w <;> simp [Keeps, Language.every]

theorem Wrapper.parserWithin {stopped : Stop → Prop} {L : Language Value} (joins : L.Joins)
    (stalls : stopped (.panic .stalledRepetition)) (w : Wrapper) (keeps : w.Keeps L)
    {p : Parser Value} (within : p.Within stopped L) : (w.parser p).Within stopped L := by
  have many := Parser.manyWithin joins stalls within
  cases w with
  | many => exact many
  | many1 => exact Parser.sequenceWithin joins (by simp [within, many])
  | map f => exact Parser.mapAllWithin keeps within
  | mapAll f => exact Parser.mapAllWithin keeps within
  | mapAll? f => exact Parser.mapAllWithin? keeps within
  | fold f seed => exact Parser.mapAllWithin keeps within
  | fold? f seed => exact Parser.mapAllWithin? keeps within
  | notAhead => exact Parser.notAheadWithin joins within
  | skip => exact Parser.skipWithin keeps within
  | whole => exact fun n => Parser.readsWhole (within n)
  | traced label => exact fun n => Parser.readsTraced label (within n)
  | times k =>
    exact Parser.sequenceWithin joins fun q inside => List.eq_of_mem_replicate inside ▸ within

end Descent
