import Descent.Proofs.Assembly
import Descent.Proofs.Outcome
import Descent.Proofs.Within
/-!
What a match leaves is the end of the text it was given. Every way to build a parser keeps this, so
every grammar has it whose own functions have it. Therefore offsets are differences of lengths: they
are never taken from a text that is too short, and they lie between scalars.
-/
namespace Descent

def OwnText (s : Stop) : Prop := s ≠ .panic .foreignInput

theorem OwnText.stalls : OwnText (.panic .stalledRepetition) := by simp [OwnText]

def Parser.LeavesEnd {α : Type} (p : Parser α) : Prop :=
  ∀ n, p.Reads OwnText n Language.every

def Leaf.LeavesEnd : Leaf → Prop
  | .custom look => ∀ input m, look input = some m → m.rest <:+ input
  | _ => True

theorem Leaf.parserEnd {l : Leaf} (ends : l.LeavesEnd) : l.parser.LeavesEnd := by
  rcases l.parserPlain with plain | ⟨look, rfl⟩
  · exact plain.withinEvery OwnText.stalls
  · intro n input _
    refine Run.endsPure fun m found => ?_
    obtain ⟨w, splits⟩ := ends input m found
    exact ⟨w, splits.symm, trivial⟩

theorem Wrapper.parserEnd (w : Wrapper) {p : Parser Value} (ends : p.LeavesEnd) :
    (w.parser p).LeavesEnd :=
  w.parserWithin Language.everyJoins OwnText.stalls w.keepsEvery ends

namespace Rule

variable {call : Reference → Parser Value}

mutual

theorem parserEnd (calls : ∀ r, (call r).LeavesEnd) : ∀ rule : Rule, rule.Leaves Leaf.LeavesEnd →
    (rule.parser call).LeavesEnd
  | .leaf _, ends => Leaf.parserEnd ends
  | .wrap w body, ends => w.parserEnd (parserEnd calls body ends)
  | .choice members, ends => Parser.choiceWithin (parsersEnd calls members ends)
  | .sequence members, ends => Parser.sequenceWithin Language.everyJoins (parsersEnd calls members ends)
  | .choiceOf n member last, ends => by
    refine Parser.choiceWithin fun p inside => ?_
    rcases List.mem_append.mp inside with copy | final
    · exact List.eq_of_mem_replicate copy ▸ parserEnd calls member ends.1
    · exact List.mem_singleton.mp final ▸ parserEnd calls last ends.2
  | .between left middle right, ends =>
    Parser.betweenWithin Language.everyJoins (fun _ _ _ => trivial) (parserEnd calls left ends.1)
      (parserEnd calls middle ends.2.1) (parserEnd calls right ends.2.2)
  | .block start terminator escape, ends =>
    have scalar : Leaf.anyChar.parser.LeavesEnd := Leaf.parserEnd trivial
    Parser.blockWithin Language.everyJoins OwnText.stalls scalar (parserEnd calls start ends.1)
      (parserEnd calls terminator ends.2.1) (parserEnd calls escape ends.2.2)
  | .refer r, _ => calls r

theorem parsersEnd (calls : ∀ r, (call r).LeavesEnd) : ∀ rules : List Rule,
    LeavesOfAll Leaf.LeavesEnd rules → ∀ p ∈ parsers call rules, p.LeavesEnd
  | [], _, _, inside => by simp [parsers] at inside
  | rule :: rules, ends, p, inside => by
    rcases List.mem_cons.mp inside with same | later
    · exact same ▸ parserEnd calls rule ends.1
    · exact parsersEnd calls rules ends.2 p later

end

end Rule

namespace Store

theorem memOfDefinition {σ : Store} {cell : Nat} {rule : Rule}
    (found : σ.definition? cell = some rule) : some rule ∈ σ.cells := by
  simp only [definition?, Option.join_eq_some_iff] at found
  exact List.mem_of_getElem? found

theorem resolveDefinition {σ : Store} {live : List Nat} {r : Reference} {rule : Rule}
    (found : σ.resolve live r = .ok rule) : σ.definition? r.cell = some rule := by
  unfold resolve at found
  split at found
  · split at found
    · rename_i cell _
      cases h : σ.definition? cell with
      | none => simp [h] at found
      | some other =>
        simp only [h, Option.elim_some, Except.ok.injEq] at found
        exact found ▸ h
    · contradiction
  · cases h : σ.definition? r.cell with
    | none => simp [h] at found
    | some other =>
      simp only [h, Option.elim_some, Except.ok.injEq] at found
      exact found ▸ rfl

theorem resolveCause {σ : Store} {live : List Nat} {r : Reference} {cause : Panic}
    (failed : σ.resolve live r = .error cause) :
    cause = .undefinedHandle ∨ cause = .droppedHandle := by
  unfold resolve at failed
  split at failed
  · rename_i cell
    split at failed
    · cases h : σ.definition? cell <;> simp_all
    · simp_all
  · cases h : σ.definition? r.cell <;> simp_all

theorem invokeEnd {σ : Store} (leaves : σ.Leaves Leaf.LeavesEnd) (live : List Nat) (depth : Nat)
    (r : Reference) : (σ.invoke live depth r).LeavesEnd := by
  induction depth generalizing r with
  | zero => exact fun _ _ _ => by simp [invoke, OwnText, Run.stop, Run.Ends]
  | succ depth ih =>
    intro n input short
    rw [invoke]
    split
    · rename_i rule found
      exact Rule.parserEnd ih rule (leaves rule (memOfDefinition (resolveDefinition found))) n input
        short
    · rename_i cause failed
      rcases resolveCause failed with rfl | rfl <;>
        simp [OwnText, Run.panic, Run.stop, Run.Ends]

theorem parserEnd {σ : Store} {rule : Rule} (leaves : σ.Leaves Leaf.LeavesEnd)
    (own : rule.Leaves Leaf.LeavesEnd) (alive : List Rule) : (σ.parser alive rule).LeavesEnd :=
  fun n input short => Rule.parserEnd (invokeEnd leaves _ _) rule own n input short

end Store

theorem Grammar.parserEnd {g : Grammar} (leaves : g.Leaves Leaf.LeavesEnd) : g.parser.LeavesEnd :=
  have assembled := Grammar.assembledLeaves leaves trivial
  Store.parserEnd assembled.2 assembled.1 _

namespace Parser

variable {α : Type} {p : Parser α} {input : Text}

theorem leftoverSplits (ends : p.LeavesEnd) {m : Match α}
    (found : (p input).ending = .ok (some m)) : ∃ used, input = used ++ m.rest ∧
      m.consumed input = .ok used.byteLength ∧
      used.byteLength + m.rest.byteLength = input.byteLength := by
  obtain ⟨used, split, -⟩ :=
    Run.endsResult (ends input.length input (Nat.le_refl _)) found m rfl
  have bytes := Text.byteLengthAppend used m.rest
  have consumed := m.consumedSplits used
  rw [← split] at bytes consumed
  exact ⟨used, split, consumed, bytes.symm⟩

theorem leftoverFits (ends : p.LeavesEnd) {m : Match α}
    (found : (p input).ending = .ok (some m)) : m.rest.byteLength ≤ input.byteLength := by
  obtain ⟨used, -, -, bytes⟩ := leftoverSplits ends found
  omega

theorem trailingIff (ends : p.LeavesEnd) (offset remaining : Nat) :
    (parseAll p input).ending = .ok (.error (.trailingInput offset remaining)) ↔
      ∃ m used, (p input).ending = .ok (some m) ∧ m.rest ≠ [] ∧ input = used ++ m.rest ∧
        offset = used.byteLength ∧ remaining = m.rest.byteLength := by
  rw [parseAllEnding]
  constructor
  · intro trailing
    cases found : (p input).ending with
    | error s => simp [found] at trailing
    | ok outcome =>
      cases outcome with
      | none => simp [found] at trailing
      | some m =>
        obtain ⟨used, split, -, bytes⟩ := leftoverSplits ends found
        by_cases whole : m.rest = []
        · simp [found, whole] at trailing
        · have fits : m.rest.byteLength ≤ input.byteLength := by omega
          simp only [found, if_neg whole, if_pos fits, Except.ok.injEq, Except.error.injEq,
            ParseError.trailingInput.injEq] at trailing
          exact ⟨m, used, rfl, whole, split, by omega, trailing.2.symm⟩
  · rintro ⟨m, used, found, left, split, rfl, rfl⟩
    have bytes := Text.byteLengthAppend used m.rest
    rw [← split] at bytes
    have fits := Nat.le_add_left m.rest.byteLength used.byteLength
    simp only [found, if_neg left, bytes, if_pos fits, Nat.add_sub_cancel]

end Parser

theorem leftoverEndsTheText (g : Grammar) (own : g.Leaves Leaf.LeavesEnd) (input : Text) :
    (g.parser input).ending ≠ .error (.panic .foreignInput) ∧
    (∀ m, (g.parser input).ending = .ok (some m) → ∃ used, input = used ++ m.rest ∧
      m.consumed input = .ok used.byteLength ∧
      used.byteLength + m.rest.byteLength = input.byteLength) ∧
    ∀ offset remaining,
      (parseAll g.parser input).ending = .ok (.error (.trailingInput offset remaining)) ↔
        ∃ m used, (g.parser input).ending = .ok (some m) ∧ m.rest ≠ [] ∧
          input = used ++ m.rest ∧ offset = used.byteLength ∧ remaining = m.rest.byteLength := by
  have ends : g.parser.LeavesEnd := Grammar.parserEnd own
  refine ⟨fun foreign => ?_, fun m found => Parser.leftoverSplits ends found, Parser.trailingIff ends⟩
  exact Run.endsStopped (ends input.length input (Nat.le_refl _)) foreign rfl

theorem leftoverOfCustomLeaf :
    let g : Grammar := .recursive "g" (.sequence [.wrap (.traced "one")
      (.leaf (.custom fun input => some ⟨input.drop 1, [.null]⟩)), .leaf .anyChar])
    g.Leaves Leaf.LeavesEnd ∧ ∃ used : Text, "aéz".toList = used ++ ['z'] ∧
      (parseAll g.parser "aéz".toList).ending =
        .ok (.error (.trailingInput used.byteLength 1)) := by
  intro g
  have own : g.Leaves Leaf.LeavesEnd := by
    refine ⟨fun input m found => ?_, trivial, trivial⟩
    cases Option.some.inj found
    exact List.drop_suffix 1 input
  obtain ⟨-, splits, trailing⟩ := leftoverEndsTheText g own "aéz".toList
  have found : (g.parser "aéz".toList).ending = .ok (some ⟨['z'], [.null, .char 'é']⟩) := rfl
  obtain ⟨used, split, -, -⟩ := splits _ found
  exact ⟨own, used, split, (trailing _ _).mpr ⟨_, used, found, by simp, split, rfl, rfl⟩⟩

end Descent
