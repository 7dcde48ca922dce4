import Mathlib.Logic.Relation
import Descent.Store
/-!
Which cells are alive. The search through definitions finds exactly the cells to which a path of
definitions leads, each of which owns the next, from what is held or from a cell that leads to itself.
-/
namespace Descent

theorem Reference.ownedCell {r : Reference} {cell : Nat} (owned : r.owned? = some cell) :
    r.cell = cell := by
  cases r <;> cases owned <;> rfl

namespace Store
open Relation (ReflTransGen TransGen)

variable (σ : Store) {unseen pending : List Nat} {cell next : Nat}

def Owns (cell next : Nat) : Prop := next ∈ σ.ownedBy cell

theorem ownsIff : σ.Owns cell next ↔ ∃ rule, σ.definition? cell = some rule ∧ next ∈ rule.owns := by
  unfold Owns ownedBy
  split
  · rename_i undefined
    simp [undefined]
  · rename_i rule defined
    simp [defined]

theorem definedMade {rule : Rule} (defined : σ.definition? cell = some rule) :
    cell < σ.cells.length := by
  refine Nat.lt_of_not_le fun outside => ?_
  rw [definition?, List.getElem?_eq_none outside] at defined
  simp at defined

theorem ownsMade (owns : σ.Owns cell next) : cell < σ.cells.length := by
  obtain ⟨rule, defined, -⟩ := σ.ownsIff.mp owns
  exact σ.definedMade defined

theorem memReach (held : cell ∈ pending) (new : cell ∈ unseen) : cell ∈ σ.reach unseen pending := by
  fun_induction reach σ unseen pending with
  | case1 => contradiction
  | case2 unseen first pending _ ih =>
    by_cases same : cell = first
    · exact same ▸ List.mem_cons_self
    · refine List.mem_cons_of_mem _ (ih ?_ ((List.mem_erase_of_ne same).mpr new))
      exact List.mem_append_right _ ((List.mem_cons.mp held).resolve_left same)
  | case3 unseen first pending seen ih =>
    refine ih ((List.mem_cons.mp held).resolve_left fun same => ?_) new
    exact seen (same ▸ new)

theorem reachClosed (found : cell ∈ σ.reach unseen pending) (owns : σ.Owns cell next)
    (new : next ∈ unseen) : next ∈ σ.reach unseen pending := by
  fun_induction reach σ unseen pending with
  | case1 => contradiction
  | case2 unseen first pending _ ih =>
    by_cases same : next = first
    · exact same ▸ List.mem_cons_self
    · have later := (List.mem_erase_of_ne same).mpr new
      rcases List.mem_cons.mp found with rfl | found
      · exact List.mem_cons_of_mem _ (σ.memReach (List.mem_append_left _ owns) later)
      · exact List.mem_cons_of_mem _ (ih found later)
  | case3 unseen first pending _ ih => exact ih found new

theorem reachLeads (found : cell ∈ σ.reach unseen pending) :
    cell ∈ unseen ∧ ∃ root ∈ pending, ReflTransGen σ.Owns root cell := by
  fun_induction reach σ unseen pending with
  | case1 => contradiction
  | case2 unseen first pending new ih =>
    rcases List.mem_cons.mp found with rfl | found
    · exact ⟨new, cell, List.mem_cons_self, .refl⟩
    · obtain ⟨later, root, among, path⟩ := ih found
      refine ⟨List.mem_of_mem_erase later, ?_⟩
      rcases List.mem_append.mp among with owned | held
      · exact ⟨first, List.mem_cons_self, .head owned path⟩
      · exact ⟨root, List.mem_cons_of_mem _ held, path⟩
  | case3 unseen first pending _ ih =>
    obtain ⟨new, root, among, path⟩ := ih found
    exact ⟨new, root, List.mem_cons_of_mem _ among, path⟩

theorem memClosure : cell ∈ σ.closure pending ↔
    cell < σ.cells.length ∧ ∃ root ∈ pending, ReflTransGen σ.Owns root cell := by
  constructor
  · intro found
    obtain ⟨made, root⟩ := σ.reachLeads found
    exact ⟨List.mem_range.mp made, root⟩
  · rintro ⟨made, root, held, path⟩
    induction path with
    | refl => exact σ.memReach held (List.mem_range.mpr made)
    | tail _ owns ih => exact σ.reachClosed (ih (σ.ownsMade owns)) owns (List.mem_range.mpr made)

theorem memSelfOwned : cell ∈ σ.selfOwned ↔ cell < σ.cells.length ∧ TransGen σ.Owns cell cell := by
  rw [selfOwned, List.mem_filter, List.mem_range]
  refine and_congr_right fun made => ?_
  rw [decide_eq_true_iff, memClosure, TransGen.head'_iff]
  simp [made, Owns]

theorem ownsEarlier (earlier : ∀ cell next, σ.Owns cell next → next < cell) (cell : Nat) :
    ¬ TransGen σ.Owns cell cell := by
  intro cycle
  have below : ∀ next, TransGen σ.Owns cell next → next < cell := by
    intro next path
    induction path with
    | single owns => exact earlier _ _ owns
    | tail _ owns ih => exact Nat.lt_trans (earlier _ _ owns) ih
  exact Nat.lt_irrefl cell (below cell cycle)

def Root (rules : List Rule) (cell : Nat) : Prop :=
  (∃ rule ∈ rules, cell ∈ rule.owns) ∨ TransGen σ.Owns cell cell

theorem memOwned {rules : List Rule} : cell ∈ σ.owned rules ↔
    cell < σ.cells.length ∧ ∃ root, σ.Root rules root ∧ ReflTransGen σ.Owns root cell := by
  rw [owned, memClosure]
  refine and_congr_right fun _ => exists_congr fun root => and_congr_left fun path => ?_
  rw [List.mem_append, memSelfOwned, List.mem_flatMap, Root, or_comm]
  refine or_congr_right ⟨fun self => self.2, fun self => ⟨?_, self⟩⟩
  obtain ⟨next, owns, -⟩ := TransGen.head'_iff.mp self
  exact σ.ownsMade owns

theorem heldOwned {rules : List Rule} {rule : Rule} (alive : rule ∈ rules) (owns : cell ∈ rule.owns)
    (made : cell < σ.cells.length) : cell ∈ σ.owned rules :=
  σ.memOwned.mpr ⟨made, cell, .inl ⟨rule, alive, owns⟩, .refl⟩

theorem ownedClosed {rules : List Rule} (alive : cell ∈ σ.owned rules) (owns : σ.Owns cell next)
    (made : next < σ.cells.length) : next ∈ σ.owned rules := by
  obtain ⟨-, root, held, path⟩ := σ.memOwned.mp alive
  exact σ.memOwned.mpr ⟨made, root, held, path.tail owns⟩

theorem resolveOwning {live : List Nat} {r : Reference} (owns : r.owned?.isSome) :
    σ.resolve live r = (σ.definition? r.cell).elim (.error .undefinedHandle) .ok := by
  cases r with
  | owner cell => simp [resolve, Reference.cell]
  | handle cell tag => simp [resolve, Reference.cell]
  | weak cell => contradiction

theorem resolveWatching {live : List Nat} (alive : cell ∈ live) : σ.resolve live (.weak cell) =
    (σ.definition? cell).elim (.error .undefinedHandle) .ok := by
  rw [resolve, if_pos alive]

theorem resolveDead {live : List Nat} (dead : cell ∉ live) :
    σ.resolve live (.weak cell) = .error .droppedHandle := by
  rw [resolve, if_neg dead]

end Store
end Descent
