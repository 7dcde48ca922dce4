import Descent.Proofs.Bare
import Descent.Proofs.Congruence
import Descent.Proofs.Words
/-!
Grammars with marks: spans that are put around parts of them, at any set of places. To take the spans away
again gives the grammar back, if it has no span with the same label itself.
-/
namespace Descent

abbrev Marks := Position → Option String

def Marks.Within (added : String → Bool) (marks : Marks) : Prop :=
  ∀ p label, marks p = some label → added label = true

namespace Grammar

variable {added : String → Bool}

def marked (marks : Marks) (g : Grammar) : Grammar :=
  g.changed fun p h => (marks p).elim h fun label => .wrap (.traced label) h

def Unlabelled (added : String → Bool) (g : Grammar) : Prop :=
  g.Made (fun _ => True) fun w => w.adds added = false

mutual

theorem bareItself : ∀ g : Grammar, g.Unlabelled added → g.bare added = g
  | .leaf _, _ => rfl
  | .wrap w body, own => by
    rw [bare, if_neg (by simp [own.1]), bareItself body own.2]
  | .choice members, own => by rw [bare, bareAllItself members own]
  | .sequence members, own => by rw [bare, bareAllItself members own]
  | .choiceOf n member last, own => by rw [bare, bareItself member own.1, bareItself last own.2]
  | .between left middle right, own => by
    rw [bare, bareItself left own.2.1, bareItself middle own.2.2.1, bareItself right own.2.2.2]
  | .block start terminator escape, own => by
    rw [bare, bareItself start own.1, bareItself terminator own.2.1, bareItself escape own.2.2]
  | .ref _, _ => rfl
  | .recursive name body, own => by rw [bare, bareItself body own]
  | .together definitions body, own => by
    rw [bare, bareDefinitionsItself definitions own.1, bareItself body own.2]

theorem bareAllItself : ∀ gs : List Grammar,
    MadeAll (fun _ => True) (fun w => w.adds added = false) gs → bareAll added gs = gs
  | [], _ => rfl
  | g :: gs, own => by rw [bareAll, bareItself g own.1, bareAllItself gs own.2]

theorem bareDefinitionsItself : ∀ gs : List (String × Grammar),
    MadeDefinitions (fun _ => True) (fun w => w.adds added = false) gs → bareDefinitions added gs = gs
  | [], _ => rfl
  | (name, g) :: gs, own => by
    rw [bareDefinitions, bareItself g own.1, bareDefinitionsItself gs own.2]

end

theorem bareAllSame {gs hs : List Grammar}
    (members : List.Forall₂ (fun g h : Grammar => g.bare added = h.bare added) gs hs) :
    bareAll added gs = bareAll added hs := by
  induction members with
  | nil => rfl
  | cons first _ ih => rw [bareAll, bareAll, first, ih]

theorem bareDefinitionsSame {ds ds' : List (String × Grammar)}
    (paired : Paired (fun g h => g.bare added = h.bare added) ds ds') :
    bareDefinitions added ds = bareDefinitions added ds' := by
  induction paired with
  | nil => rfl
  | @cons d d' _ _ first _ ih =>
    obtain ⟨name, g⟩ := d
    obtain ⟨name', h⟩ := d'
    obtain ⟨same, bodies⟩ := first
    dsimp only at same bodies
    rw [bareDefinitions, bareDefinitions, same, bodies, ih]

theorem bareCongruence : Congruence fun g h => g.bare added = h.bare added where
  trans := Eq.trans
  leaf _ := rfl
  wrap w body := by rw [bare, bare, body]
  choice members := by rw [bare, bare, bareAllSame members]
  sequence members := by rw [bare, bare, bareAllSame members]
  choiceOf n member last := by rw [bare, bare, member, last]
  between left middle right := by rw [bare, bare, left, middle, right]
  block start terminator escape := by rw [bare, bare, start, terminator, escape]
  ref _ := rfl
  recursive name body := by rw [bare, bare, body]
  together definitions body := by rw [bare, bare, bareDefinitionsSame definitions, body]

theorem leavesOfAllSame {good : Leaf → Prop} {gs hs : List Grammar}
    (members : List.Forall₂ (fun g h : Grammar => h.Leaves good → g.Leaves good) gs hs)
    (own : LeavesOfAll good hs) : LeavesOfAll good gs := by
  induction members with
  | nil => trivial
  | cons first _ ih => exact ⟨first own.1, ih own.2⟩

theorem leavesOfDefinitionsSame {good : Leaf → Prop} {ds ds' : List (String × Grammar)}
    (paired : Paired (fun g h => h.Leaves good → g.Leaves good) ds ds')
    (own : LeavesOfDefinitions good ds') : LeavesOfDefinitions good ds := by
  induction paired with
  | nil => trivial
  | cons first _ ih => exact ⟨first.2 own.1, ih own.2⟩

theorem leavesCongruence (good : Leaf → Prop) :
    Congruence fun g h => h.Leaves good → g.Leaves good where
  trans first second := first ∘ second
  leaf _ := id
  wrap _ body := body
  choice := leavesOfAllSame
  sequence := leavesOfAllSame
  choiceOf _ member last := And.imp member last
  between left middle right := And.imp left (And.imp middle right)
  block start terminator escape := And.imp start (And.imp terminator escape)
  ref _ := id
  recursive _ body := body
  together definitions body := And.imp (leavesOfDefinitionsSame definitions) body

theorem markedBare {marks : Marks} (within : marks.Within added) (g : Grammar) :
    (g.marked marks).bare added = g.bare added := by
  refine changedRelated bareCongruence g fun p h => ?_
  cases found : marks p with
  | none => rfl
  | some label => exact if_pos (within p label found)

theorem markedLeaves {good : Leaf → Prop} (marks : Marks) {g : Grammar}
    (own : g.Leaves good) : (g.marked marks).Leaves good := by
  refine changedRelated (leavesCongruence good) g (fun p h => ?_) own
  cases marks p <;> exact id

end Grammar

end Descent
