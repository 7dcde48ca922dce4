import Descent.Rule
/-!
Cells, each filled at most once with a rule, and what it means to refer to one. A handle works once
its cell is filled; the handle that does not own its cell works only as long as something else
does. What is alive is what can be reached through references that own, from the rules at hand and
from cells that own themselves.
-/
namespace Descent

structure Store where
  cells : List (Option Rule)
  issued : Nat

namespace Store

def empty : Store :=
  ⟨[], 0⟩

def allocate (σ : Store) : Nat × Store :=
  (σ.cells.length, {σ with cells := σ.cells ++ [none]})

def issue (σ : Store) (cell : Nat) : Reference × Store :=
  (.handle cell σ.issued, {σ with issued := σ.issued + 1})

def define (σ : Store) (cell : Nat) (rule : Rule) : Store :=
  {σ with cells := σ.cells.set cell (some rule)}

def definition? (σ : Store) (cell : Nat) : Option Rule :=
  σ.cells[cell]?.join

theorem definitionAllocate (σ : Store) (cell : Nat) :
    σ.allocate.2.definition? cell = σ.definition? cell := by
  simp only [allocate, definition?, List.getElem?_append]
  split
  · rfl
  · rename_i outside
    rw [List.getElem?_eq_none (Nat.le_of_not_lt outside)]
    cases h : cell - σ.cells.length <;> simp

theorem definitionDefine (σ : Store) {cell : Nat} (made : cell < σ.cells.length) (rule : Rule)
    (other : Nat) :
    (σ.define cell rule).definition? other =
      if other = cell then some rule else σ.definition? other := by
  simp only [define, definition?]
  split
  · rename_i same
    subst same
    simp [made]
  · rename_i different
    rw [List.getElem?_set_ne (Ne.symm different)]

def ownedBy (σ : Store) (cell : Nat) : List Nat :=
  match σ.definition? cell with
  | none => []
  | some rule => rule.owns

def reach (σ : Store) (unseen pending : List Nat) : List Nat :=
  match pending with
  | [] => []
  | cell :: pending =>
    if _new : cell ∈ unseen then
      cell :: reach σ (unseen.erase cell) (σ.ownedBy cell ++ pending)
    else
      reach σ unseen pending
termination_by (unseen.length, pending.length)
decreasing_by
  · rw [List.length_erase_of_mem _new]
    have positive := List.length_pos_of_mem _new
    exact Prod.Lex.left _ _ (by omega)
  · exact Prod.Lex.right _ (by simp)

def closure (σ : Store) (pending : List Nat) : List Nat :=
  σ.reach (List.range σ.cells.length) pending

/-- The cells that are reached from their own definitions. Nothing lets go of them any more. -/
def selfOwned (σ : Store) : List Nat :=
  (List.range σ.cells.length).filter fun cell => cell ∈ σ.closure (σ.ownedBy cell)

def owned (σ : Store) (rules : List Rule) : List Nat :=
  σ.closure (σ.selfOwned ++ rules.flatMap Rule.owns)

def retained (σ : Store) (rules : List Rule) : List Reference :=
  Rule.referencesOfAll rules ++
    (σ.owned rules).flatMap fun cell => (σ.definition? cell).elim [] Rule.references

def handleCount (σ : Store) (rules : List Rule) (cell : Nat) : Nat :=
  ((σ.retained rules).filter fun r => r.isHandle && r.cell == cell).eraseDups.length

def resolve (σ : Store) (live : List Nat) (r : Reference) : Except Panic Rule :=
  match r with
  | .weak cell =>
    if cell ∈ live then (σ.definition? cell).elim (.error .undefinedHandle) .ok
    else .error .droppedHandle
  | _ => (σ.definition? r.cell).elim (.error .undefinedHandle) .ok

def invoke (σ : Store) (live : List Nat) : Nat → Reference → Parser Value
  | 0, _, _ => Run.stop .exhausted
  | depth + 1, r, input =>
    match σ.resolve live r with
    | .ok rule => rule.parser (invoke σ live depth) input
    | .error cause => Run.panic cause

/-- References that are open at once at one position have different cells, unless a grammar calls
itself before it has consumed anything. Therefore there are no more of them than this. -/
def depthBound (σ : Store) (input : Text) : Nat :=
  σ.cells.length * (input.length + 1) + 1

def parser (σ : Store) (alive : List Rule) (rule : Rule) : Parser Value := fun input =>
  rule.parser (σ.invoke (σ.owned alive) (σ.depthBound input)) input

end Store
end Descent
