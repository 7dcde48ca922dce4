import Descent.Proofs.Meaning
import Descent.Proofs.Within
/-!
What a grammar reads when each of its parts reads words of one language, to which the empty word belongs
and every two words joined. No part of it can read anything else, however deep it refers to itself; nor
can it stop for another reason than its parts, but for a repetition that stalls and a depth that is too
small.
-/
namespace Descent

namespace Grammar

mutual

/-- All leaves and wrappers of the grammar are of these kinds. What stands between two others has these
skipped. -/
def Made (leaf : Leaf → Prop) (wrapper : Wrapper → Prop) : Grammar → Prop
  | .leaf l => leaf l
  | .wrap w body => wrapper w ∧ Made leaf wrapper body
  | .choice members => MadeAll leaf wrapper members
  | .sequence members => MadeAll leaf wrapper members
  | .choiceOf _ member last => Made leaf wrapper member ∧ Made leaf wrapper last
  | .between left middle right => wrapper .skip ∧ Made leaf wrapper left ∧
    Made leaf wrapper middle ∧ Made leaf wrapper right
  | .block start terminator escape =>
    Made leaf wrapper start ∧ Made leaf wrapper terminator ∧ Made leaf wrapper escape
  | .ref _ => True
  | .recursive _ body => Made leaf wrapper body
  | .together definitions body => MadeDefinitions leaf wrapper definitions ∧ Made leaf wrapper body

def MadeAll (leaf : Leaf → Prop) (wrapper : Wrapper → Prop) : List Grammar → Prop
  | [] => True
  | g :: gs => Made leaf wrapper g ∧ MadeAll leaf wrapper gs

def MadeDefinitions (leaf : Leaf → Prop) (wrapper : Wrapper → Prop) :
    List (String × Grammar) → Prop
  | [] => True
  | (_, g) :: gs => Made leaf wrapper g ∧ MadeDefinitions leaf wrapper gs

end

mutual

theorem madeAnyhow {leaf : Leaf → Prop} : ∀ g : Grammar, g.Leaves leaf → g.Made leaf fun _ => True
  | .leaf _, own => own
  | .wrap _ body, own => ⟨trivial, madeAnyhow body own⟩
  | .choice members, own => madeAllAnyhow members own
  | .sequence members, own => madeAllAnyhow members own
  | .choiceOf _ member last, own => ⟨madeAnyhow member own.1, madeAnyhow last own.2⟩
  | .between left middle right, own =>
    ⟨trivial, madeAnyhow left own.1, madeAnyhow middle own.2.1, madeAnyhow right own.2.2⟩
  | .block start terminator escape, own =>
    ⟨madeAnyhow start own.1, madeAnyhow terminator own.2.1, madeAnyhow escape own.2.2⟩
  | .ref _, _ => trivial
  | .recursive _ body, own => madeAnyhow body own
  | .together definitions body, own =>
    ⟨madeDefinitionsAnyhow definitions own.1, madeAnyhow body own.2⟩

theorem madeAllAnyhow {leaf : Leaf → Prop} : ∀ gs : List Grammar, LeavesOfAll leaf gs →
    MadeAll leaf (fun _ => True) gs
  | [], _ => trivial
  | g :: gs, own => ⟨madeAnyhow g own.1, madeAllAnyhow gs own.2⟩

theorem madeDefinitionsAnyhow {leaf : Leaf → Prop} : ∀ gs : List (String × Grammar),
    LeavesOfDefinitions leaf gs → MadeDefinitions leaf (fun _ => True) gs
  | [], _ => trivial
  | (_, g) :: gs, own => ⟨madeAnyhow g own.1, madeDefinitionsAnyhow gs own.2⟩

end

end Grammar

def Environment.Within (stopped : Stop → Prop) (L : Language Value) (depth : Nat)
    (env : Environment) : Prop :=
  ∀ x, ∀ d ≤ depth, ((Grammar.ref x).meaning (Closure.run d) env).Within stopped L

namespace Grammar
open Environment (definingFinds)

variable {stopped : Stop → Prop} {L : Language Value} {leaf : Leaf → Prop} {wrapper : Wrapper → Prop}

theorem namesWithin (exhausts : stopped .exhausted) {definitions : List (String × Grammar)}
    (bodies : ∀ d ∈ definitions, ∀ depth env, Environment.Within stopped L depth env →
      (d.2.meaning (Closure.run depth) env).Within stopped L)
    {depth : Nat} {env : Environment} (names : Environment.Within stopped L depth env) :
    Environment.Within stopped L depth (Environment.defining definitions env) := by
  induction depth using Nat.strongRecOn with
  | ind depth ih =>
    intro x d within
    rcases definingFinds definitions env x with ⟨e, inside, rfl, found⟩ | ⟨apart, -⟩
    · rw [meaning, found]
      cases d with
      | zero => exact fun _ _ _ => exhausts
      | succ d =>
        have shallow : Environment.Within stopped L d env := fun y k less =>
          names y k (by omega)
        exact bodies e inside d _ (ih d (by omega) shallow)
    · rw [Environment.definingElsewhere apart]
      exact names x d within

structure Reading (stopped : Stop → Prop) (L : Language Value) (leaf : Leaf → Prop)
    (wrapper : Wrapper → Prop) : Prop where
  joins : L.Joins
  stalls : stopped (.panic .stalledRepetition)
  exhausts : stopped .exhausted
  scalar : leaf .anyChar
  leaves (l : Leaf) (own : leaf l) : l.parser.Within stopped L
  wrappers (w : Wrapper) (own : wrapper w) : w.Keeps L

mutual

theorem meaningWithin (reading : Reading stopped L leaf wrapper) : ∀ g : Grammar,
    g.Made leaf wrapper → ∀ depth env, Environment.Within stopped L depth env →
      (g.meaning (Closure.run depth) env).Within stopped L
  | .leaf l, own, _, _, _ => reading.leaves l own
  | .wrap w body, own, depth, env, names =>
    w.parserWithin reading.joins reading.stalls (reading.wrappers w own.1)
      (meaningWithin reading body own.2 depth env names)
  | .choice members, own, depth, env, names =>
    Parser.choiceWithin (meaningsWithin reading members own depth env names)
  | .sequence members, own, depth, env, names =>
    Parser.sequenceWithin reading.joins (meaningsWithin reading members own depth env names)
  | .choiceOf n member last, own, depth, env, names => by
    refine Parser.choiceWithin fun p inside => ?_
    rcases List.mem_append.mp inside with copy | final
    · exact List.eq_of_mem_replicate copy ▸ meaningWithin reading member own.1 depth env names
    · exact List.mem_singleton.mp final ▸ meaningWithin reading last own.2 depth env names
  | .between left middle right, own, depth, env, names => by
    obtain ⟨skips, first, second, third⟩ := own
    exact Parser.betweenWithin reading.joins (reading.wrappers .skip skips)
      (meaningWithin reading left first depth env names)
      (meaningWithin reading middle second depth env names)
      (meaningWithin reading right third depth env names)
  | .block start terminator escape, own, depth, env, names =>
    Parser.blockWithin reading.joins reading.stalls (reading.leaves .anyChar reading.scalar)
      (meaningWithin reading start own.1 depth env names)
      (meaningWithin reading terminator own.2.1 depth env names)
      (meaningWithin reading escape own.2.2 depth env names)
  | .ref name, _, depth, _, names => names name depth (Nat.le_refl depth)
  | .recursive name body, own, depth, env, names => by
    have bodies : ∀ d ∈ [(name, body)], ∀ depth env, Environment.Within stopped L depth env →
        (d.2.meaning (Closure.run depth) env).Within stopped L :=
      List.forall_mem_singleton.mpr (meaningWithin reading body own)
    have inside := namesWithin reading.exhausts bodies names name depth (Nat.le_refl depth)
    simpa [meaning, Environment.defining, Table.find?] using inside
  | .together definitions body, own, depth, env, names =>
    meaningWithin reading body own.2 depth _
      (namesWithin reading.exhausts (definitionsWithin reading definitions own.1) names)

theorem meaningsWithin (reading : Reading stopped L leaf wrapper) : ∀ gs : List Grammar,
    MadeAll leaf wrapper gs → ∀ depth env, Environment.Within stopped L depth env →
      ∀ p ∈ meanings (Closure.run depth) env gs, p.Within stopped L
  | [], _, _, _, _ => List.forall_mem_nil _
  | g :: gs, own, depth, env, names => List.forall_mem_cons.mpr
    ⟨meaningWithin reading g own.1 depth env names, meaningsWithin reading gs own.2 depth env names⟩

theorem definitionsWithin (reading : Reading stopped L leaf wrapper) :
    ∀ gs : List (String × Grammar), MadeDefinitions leaf wrapper gs → ∀ d ∈ gs, ∀ depth env,
      Environment.Within stopped L depth env →
        (d.2.meaning (Closure.run depth) env).Within stopped L
  | [], _ => List.forall_mem_nil _
  | (_, g) :: gs, own =>
    List.forall_mem_cons.mpr ⟨meaningWithin reading g own.1, definitionsWithin reading gs own.2⟩

end

theorem parserWithin (reading : Reading stopped L leaf wrapper) {g : Grammar}
    (own : g.Made leaf wrapper) : g.parser.Within stopped L := by
  intro n input short
  rw [parserMeans]
  refine meaningWithin reading g own _ [] ?_ n input short
  exact fun _ _ _ _ => Parser.readsFail

end Grammar
end Descent
