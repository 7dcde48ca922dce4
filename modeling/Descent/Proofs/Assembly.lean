import Descent.Blueprint
/-!
What assembling a grammar keeps. A property of blueprints that every operation of an assembly keeps
is kept by the whole; here it is that the leaves of all rules, in cells and in scopes, are leaves of
the grammar.
-/
namespace Descent

namespace Assembly

variable {α β : Type} {kept : Blueprint → Prop} {made : α → Prop}

def Keeps (kept : Blueprint → Prop) (made : α → Prop) (work : Assembly α) : Prop :=
  ∀ b, kept b → made (work b).1 ∧ kept (work b).2

theorem keepsPure {a : α} (holds : made a) : Keeps kept made (pure a : Assembly α) :=
  fun _ before => ⟨holds, before⟩

theorem keepsBind {finished : β → Prop} {work : Assembly α} {next : α → Assembly β}
    (first : Keeps kept made work) (rest : ∀ a, made a → Keeps kept finished (next a)) :
    Keeps kept finished (work >>= next) := fun b before =>
  rest (work b).1 (first b before).1 (work b).2 (first b before).2

end Assembly

namespace Rule

mutual

def Leaves (good : Leaf → Prop) : Rule → Prop
  | .leaf l => good l
  | .wrap _ body => Leaves good body
  | .choice members => LeavesOfAll good members
  | .sequence members => LeavesOfAll good members
  | .choiceOf _ member last => Leaves good member ∧ Leaves good last
  | .between left middle right => Leaves good left ∧ Leaves good middle ∧ Leaves good right
  | .block start terminator escape =>
    Leaves good start ∧ Leaves good terminator ∧ Leaves good escape
  | .refer _ => True

def LeavesOfAll (good : Leaf → Prop) : List Rule → Prop
  | [] => True
  | rule :: rules => Leaves good rule ∧ LeavesOfAll good rules

end

theorem leavesOfAllIff {good : Leaf → Prop} {rules : List Rule} :
    LeavesOfAll good rules ↔ ∀ rule ∈ rules, rule.Leaves good := by
  induction rules with
  | nil => simp [LeavesOfAll]
  | cons rule rules ih => simp [LeavesOfAll, ih]

end Rule

namespace Grammar

mutual

def Leaves (good : Leaf → Prop) : Grammar → Prop
  | .leaf l => good l
  | .wrap _ body => Leaves good body
  | .choice members => LeavesOfAll good members
  | .sequence members => LeavesOfAll good members
  | .choiceOf _ member last => Leaves good member ∧ Leaves good last
  | .between left middle right => Leaves good left ∧ Leaves good middle ∧ Leaves good right
  | .block start terminator escape =>
    Leaves good start ∧ Leaves good terminator ∧ Leaves good escape
  | .ref _ => True
  | .recursive _ body => Leaves good body
  | .together definitions body => LeavesOfDefinitions good definitions ∧ Leaves good body

def LeavesOfAll (good : Leaf → Prop) : List Grammar → Prop
  | [] => True
  | g :: gs => Leaves good g ∧ LeavesOfAll good gs

def LeavesOfDefinitions (good : Leaf → Prop) : List (String × Grammar) → Prop
  | [] => True
  | (_, g) :: gs => Leaves good g ∧ LeavesOfDefinitions good gs

end

theorem leavesOfAllIff {good : Leaf → Prop} {gs : List Grammar} :
    LeavesOfAll good gs ↔ ∀ g ∈ gs, g.Leaves good := by
  induction gs with
  | nil => simp [LeavesOfAll]
  | cons g gs ih => simp [LeavesOfAll, ih]

end Grammar

def Store.Leaves (good : Leaf → Prop) (σ : Store) : Prop :=
  ∀ rule, some rule ∈ σ.cells → rule.Leaves good

def Scope.Leaves (good : Leaf → Prop) (scope : Scope) : Prop :=
  ∀ name rule, (name, Meaning.rule rule) ∈ scope → rule.Leaves good

namespace Scope

variable {good : Leaf → Prop} {scope names : Scope}

theorem leavesAppend (first : Scope.Leaves good names) (second : Scope.Leaves good scope) :
    Scope.Leaves good (names ++ scope) := fun name rule inside =>
  (List.mem_append.mp inside).elim (first name rule) (second name rule)

theorem leavesCons {name : String} (rule : Rule) (own : rule.Leaves good)
    (others : Scope.Leaves good scope) : Scope.Leaves good ((name, .rule rule) :: scope) := by
  intro other r inside
  rcases List.mem_cons.mp inside with same | later
  · cases same
    exact own
  · exact others other r later

theorem leavesReverse (leaves : Scope.Leaves good names) : Scope.Leaves good names.reverse :=
  fun name rule inside => leaves name rule (List.mem_reverse.mp inside)

theorem leavesCells (cells : List (String × Nat)) :
    Scope.Leaves good (cells.map fun d => (d.1, Meaning.cell d.2)) := by
  intro name rule inside
  obtain ⟨d, -, same⟩ := List.mem_map.mp inside
  simp at same

theorem leavesFind {scope : Scope} {name : String} {rule : Rule} (leaves : Scope.Leaves good scope)
    (found : Table.find? name scope = some (.rule rule)) : rule.Leaves good := by
  induction scope with
  | nil => simp [Table.find?] at found
  | cons entry rest ih =>
    obtain ⟨key, meaning⟩ := entry
    simp only [Table.find?] at found
    split at found
    · cases Option.some.inj found
      exact leaves key rule List.mem_cons_self
    · exact ih (fun n r inside => leaves n r (List.mem_cons_of_mem _ inside)) found

end Scope

namespace Assembly

variable {good : Leaf → Prop}

def StoreLeaves (good : Leaf → Prop) (b : Blueprint) : Prop :=
  b.store.Leaves good

theorem allocateLeaves : Keeps (StoreLeaves good) (fun _ => True) allocate := by
  intro b before
  refine ⟨trivial, fun rule inside => ?_⟩
  rcases List.mem_append.mp inside with old | new
  · exact before rule old
  · simp at new

theorem issueLeaves (cell : Nat) : Keeps (StoreLeaves good) (Rule.Leaves good) (issue cell) :=
  fun _ before => ⟨trivial, before⟩

theorem defineLeaves {alive : List Rule} {cell : Nat} {rule : Rule} (leaves : rule.Leaves good) :
    Keeps (StoreLeaves good) (Rule.Leaves good) (define alive cell rule) := by
  intro b before
  refine ⟨trivial, fun other inside => ?_⟩
  rcases List.mem_or_eq_of_mem_set inside with old | new
  · exact before other old
  · exact Option.some.inj new ▸ leaves

theorem allocateAllLeaves (names : List String) :
    Keeps (StoreLeaves good) (fun _ => True) (allocateAll names) := by
  induction names with
  | nil => exact keepsPure trivial
  | cons name names ih =>
    exact keepsBind allocateLeaves fun _ _ => keepsBind ih fun _ _ => keepsPure trivial

theorem defineAllLeaves {alive : List Rule} (cells : List (String × Nat)) {rules : List Rule}
    (leaves : Rule.LeavesOfAll good rules) :
    Keeps (StoreLeaves good) (Scope.Leaves good) (defineAll alive cells rules) := by
  induction cells generalizing rules with
  | nil => exact keepsPure (by simp [Scope.Leaves])
  | cons entry cells ih =>
    cases rules with
    | nil => exact keepsPure (by simp [Scope.Leaves])
    | cons rule rules =>
      refine keepsBind (defineLeaves leaves.1) fun finished first => ?_
      exact keepsBind (ih leaves.2) fun scope rest => keepsPure (Scope.leavesCons finished first rest)

theorem lookupLeaves {scope : Scope} (leaves : Scope.Leaves good scope) (fails : good .fail)
    (name : String) : Keeps (StoreLeaves good) (Rule.Leaves good) (lookup scope name) := by
  unfold lookup
  split
  · exact keepsPure fails
  · rename_i rule found
    exact keepsPure (Scope.leavesFind leaves found)
  · exact issueLeaves _

end Assembly

namespace Grammar
open Assembly (Keeps StoreLeaves keepsPure keepsBind)

variable {good : Leaf → Prop}

mutual

theorem assembleLeaves (fails : good .fail) : ∀ (g : Grammar) (scope : Scope), g.Leaves good →
    Scope.Leaves good scope → Keeps (StoreLeaves good) (Rule.Leaves good) (g.assemble scope)
  | .leaf _, _, leaves, _ => keepsPure leaves
  | .wrap _ body, scope, leaves, names =>
    keepsBind (assembleLeaves fails body scope leaves names) fun _ made => keepsPure made
  | .choice members, scope, leaves, names =>
    keepsBind (assembleAllLeaves fails members scope leaves names) fun _ made => keepsPure made
  | .sequence members, scope, leaves, names =>
    keepsBind (assembleAllLeaves fails members scope leaves names) fun _ made => keepsPure made
  | .choiceOf _ member last, scope, leaves, names =>
    keepsBind (assembleLeaves fails member scope leaves.1 names) fun _ first =>
      keepsBind (assembleLeaves fails last scope leaves.2 names) fun _ second =>
        keepsPure ⟨first, second⟩
  | .between left middle right, scope, leaves, names =>
    keepsBind (assembleLeaves fails left scope leaves.1 names) fun _ first =>
      keepsBind (assembleLeaves fails middle scope leaves.2.1 names) fun _ second =>
        keepsBind (assembleLeaves fails right scope leaves.2.2 names) fun _ third =>
          keepsPure ⟨first, second, third⟩
  | .block start terminator escape, scope, leaves, names =>
    keepsBind (assembleLeaves fails start scope leaves.1 names) fun _ first =>
      keepsBind (assembleLeaves fails terminator scope leaves.2.1 names) fun _ second =>
        keepsBind (assembleLeaves fails escape scope leaves.2.2 names) fun _ third =>
          keepsPure ⟨first, second, third⟩
  | .ref name, _, _, names => Assembly.lookupLeaves names fails name
  | .recursive _ body, _, leaves, names =>
    keepsBind Assembly.allocateLeaves fun cell _ =>
      keepsBind (assembleLeaves fails body _ leaves (Scope.leavesCons (.refer (.weak cell)) trivial names))
        fun _ made => Assembly.defineLeaves made
  | .together definitions body, _, leaves, names =>
    keepsBind (Assembly.allocateAllLeaves _) fun cells _ =>
      keepsBind (assembleDefinitionsLeaves fails definitions _ leaves.1
          (Scope.leavesAppend (Scope.leavesReverse (Scope.leavesCells cells)) names))
        fun _ made => keepsBind (Assembly.defineAllLeaves cells made) fun _ finished =>
          assembleLeaves fails body _ leaves.2
            (Scope.leavesAppend (Scope.leavesReverse finished) names)

theorem assembleAllLeaves (fails : good .fail) : ∀ (gs : List Grammar) (scope : Scope),
    LeavesOfAll good gs → Scope.Leaves good scope →
      Keeps (StoreLeaves good) (Rule.LeavesOfAll good) (assembleAll scope gs)
  | [], _, _, _ => keepsPure trivial
  | g :: gs, scope, leaves, names =>
    keepsBind (assembleLeaves fails g scope leaves.1 names) fun _ first =>
      keepsBind (assembleAllLeaves fails gs scope leaves.2 names) fun _ rest =>
        keepsPure ⟨first, rest⟩

theorem assembleDefinitionsLeaves (fails : good .fail) :
    ∀ (gs : List (String × Grammar)) (scope : Scope), LeavesOfDefinitions good gs →
      Scope.Leaves good scope →
        Keeps (StoreLeaves good) (Rule.LeavesOfAll good) (assembleDefinitions scope gs)
  | [], _, _, _ => keepsPure trivial
  | (_, g) :: gs, scope, leaves, names =>
    keepsBind (assembleLeaves fails g scope leaves.1 names) fun _ first =>
      keepsBind (assembleDefinitionsLeaves fails gs scope leaves.2 names) fun _ rest =>
        keepsPure ⟨first, rest⟩

end

theorem assembledLeaves {g : Grammar} (leaves : g.Leaves good) (fails : good .fail) :
    g.assembled.rule.Leaves good ∧ g.assembled.store.Leaves good :=
  assembleLeaves fails g [] leaves (by simp [Scope.Leaves]) ⟨Store.empty, []⟩
    (by simp [StoreLeaves, Store.Leaves, Store.empty])

end Grammar
end Descent
