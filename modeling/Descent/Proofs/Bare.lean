import Descent.Proofs.Lookup
import Descent.Session
/-!
Grammars without the spans of some labels. To take the spans away and to assemble can be done in either
order, in a session as well as in a grammar alone: a span holds what its body holds, so there are the same
cells, with the same handles, and as many of them alive at each definition.
-/
namespace Descent

def Wrapper.adds (added : String → Bool) : Wrapper → Bool
  | .traced label => added label
  | _ => false

theorem Wrapper.addsKeeps {added : String → Bool} {w : Wrapper} (adds : w.adds added = true) :
    w.keeps = true := by
  cases w <;> first | rfl | contradiction

namespace Grammar

mutual

def bare (added : String → Bool) : Grammar → Grammar
  | .leaf l => .leaf l
  | .wrap w body => if w.adds added then bare added body else .wrap w (bare added body)
  | .choice members => .choice (bareAll added members)
  | .sequence members => .sequence (bareAll added members)
  | .choiceOf n member last => .choiceOf n (bare added member) (bare added last)
  | .between left middle right => .between (bare added left) (bare added middle) (bare added right)
  | .block start terminator escape =>
    .block (bare added start) (bare added terminator) (bare added escape)
  | .ref name => .ref name
  | .recursive name body => .recursive name (bare added body)
  | .together definitions body => .together (bareDefinitions added definitions) (bare added body)

def bareAll (added : String → Bool) : List Grammar → List Grammar
  | [] => []
  | g :: gs => bare added g :: bareAll added gs

def bareDefinitions (added : String → Bool) : List (String × Grammar) → List (String × Grammar)
  | [] => []
  | (name, g) :: gs => (name, bare added g) :: bareDefinitions added gs

end

end Grammar

namespace Rule

mutual

def bare (added : String → Bool) : Rule → Rule
  | .leaf l => .leaf l
  | .wrap w body => if w.adds added then bare added body else .wrap w (bare added body)
  | .choice members => .choice (bareAll added members)
  | .sequence members => .sequence (bareAll added members)
  | .choiceOf n member last => .choiceOf n (bare added member) (bare added last)
  | .between left middle right => .between (bare added left) (bare added middle) (bare added right)
  | .block start terminator escape =>
    .block (bare added start) (bare added terminator) (bare added escape)
  | .refer r => .refer r

def bareAll (added : String → Bool) : List Rule → List Rule
  | [] => []
  | rule :: rules => bare added rule :: bareAll added rules

end

variable (added : String → Bool)

mutual

theorem bareReferences : ∀ rule : Rule, (rule.bare added).references = rule.references
  | .leaf _ => rfl
  | .wrap w body => by
    rw [bare]
    split
    · rename_i adds
      rw [references, if_pos (Wrapper.addsKeeps adds), bareReferences body]
    · rw [references, references, bareReferences body]
  | .choice members => bareAllReferences members
  | .sequence members => bareAllReferences members
  | .choiceOf n member last => by
    rw [bare, references, references, bareReferences member, bareReferences last]
  | .between left middle right => by
    rw [bare, references, references, bareReferences left, bareReferences middle, bareReferences right]
  | .block start terminator escape => by
    rw [bare, references, references, bareReferences start, bareReferences terminator,
      bareReferences escape]
  | .refer _ => rfl

theorem bareAllReferences : ∀ rules : List Rule,
    referencesOfAll (bareAll added rules) = referencesOfAll rules
  | [] => rfl
  | rule :: rules => by
    rw [bareAll, referencesOfAll, referencesOfAll, bareReferences rule, bareAllReferences rules]

end

theorem bareAllMap (rules : List Rule) : bareAll added rules = rules.map (bare added) := by
  induction rules with
  | nil => rfl
  | cons rule rules ih => rw [bareAll, ih, List.map_cons]

theorem bareOwns (rule : Rule) : (rule.bare added).owns = rule.owns := by
  rw [owns, owns, bareReferences]

end Rule

namespace Store

variable (added : String → Bool) (σ : Store)

def bare : Store := {σ with cells := σ.cells.map (Option.map (Rule.bare added))}

theorem bareLength : (σ.bare added).cells.length = σ.cells.length := List.length_map _

theorem bareDefinition (cell : Nat) :
    (σ.bare added).definition? cell = (σ.definition? cell).map (Rule.bare added) := by
  simp only [definition?, bare, List.getElem?_map]
  cases σ.cells[cell]? <;> rfl

theorem bareAllocate : (σ.bare added).allocate = (σ.allocate.1, σ.allocate.2.bare added) := by
  simp [allocate, bare]

theorem bareDefine (cell : Nat) (rule : Rule) :
    (σ.bare added).define cell (rule.bare added) = (σ.define cell rule).bare added := by
  simp [define, bare, List.map_set]

theorem bareOwnedBy : (σ.bare added).ownedBy = σ.ownedBy := by
  funext cell
  rw [ownedBy, ownedBy, bareDefinition]
  cases σ.definition? cell with
  | none => rfl
  | some rule => exact rule.bareOwns added

theorem bareReach (unseen pending : List Nat) :
    (σ.bare added).reach unseen pending = σ.reach unseen pending := by
  fun_induction reach σ unseen pending with
  | case1 => rw [reach]
  | case2 unseen cell pending new ih => rw [reach, dif_pos new, bareOwnedBy, ih]
  | case3 unseen cell pending seen ih => rw [reach, dif_neg seen, ih]

theorem bareClosure : (σ.bare added).closure = σ.closure := by
  funext pending
  rw [closure, closure, bareLength, bareReach]

theorem bareOwned (rules : List Rule) :
    (σ.bare added).owned (rules.map (Rule.bare added)) = σ.owned rules := by
  have owns : Rule.owns ∘ Rule.bare added = Rule.owns := funext (Rule.bareOwns added)
  rw [owned, owned, selfOwned, selfOwned, bareLength, bareClosure, bareOwnedBy, List.flatMap_map]
  exact congrArg (fun f => σ.closure (_ ++ rules.flatMap f)) owns

theorem bareHandleCount (rules : List Rule) (cell : Nat) :
    (σ.bare added).handleCount (rules.map (Rule.bare added)) cell = σ.handleCount rules cell := by
  have held : ∀ cell, ((σ.bare added).definition? cell).elim [] Rule.references =
      (σ.definition? cell).elim [] Rule.references := by
    intro cell
    rw [bareDefinition]
    cases σ.definition? cell with
    | none => rfl
    | some rule => exact rule.bareReferences added
  rw [handleCount, handleCount, retained, retained, ← Rule.bareAllMap, Rule.bareAllReferences,
    Rule.bareAllMap, bareOwned]
  simp only [held]

theorem bareResolve (live : List Nat) (r : Reference) :
    (σ.bare added).resolve live r = (σ.resolve live r).map (Rule.bare added) := by
  cases r with
  | weak cell =>
    simp only [resolve, bareDefinition]
    split
    · cases σ.definition? cell <;> rfl
    · rfl
  | owner cell =>
    simp only [resolve, bareDefinition]
    cases σ.definition? _ <;> rfl
  | handle cell tag =>
    simp only [resolve, bareDefinition]
    cases σ.definition? _ <;> rfl

theorem bareDepthBound (input : Text) : (σ.bare added).depthBound input = σ.depthBound input := by
  rw [depthBound, depthBound, bareLength]

end Store

def Meaning.bare (added : String → Bool) : Meaning → Meaning
  | .rule r => .rule (r.bare added)
  | .cell c => .cell c

def Scope.bare (added : String → Bool) (scope : Scope) : Scope :=
  scope.map fun entry => (entry.1, entry.2.bare added)

namespace Scope

variable {added : String → Bool}

theorem bareAppend (names scope : Scope) : bare added (names ++ scope) = bare added names ++ bare added scope :=
  List.map_append

theorem bareReverse (names : Scope) : bare added names.reverse = (bare added names).reverse :=
  List.map_reverse

theorem bareCells (cells : List (String × Nat)) :
    bare added (cells.map fun d => (d.1, Meaning.cell d.2)) = cells.map fun d => (d.1, Meaning.cell d.2) := by
  simp [bare, Meaning.bare]

end Scope

def Blueprint.bare (added : String → Bool) (b : Blueprint) : Blueprint :=
  {b with store := b.store.bare added}

namespace Assembly

variable {added : String → Bool} {α β γ : Type}

structure Alongside (added : String → Bool) (f : α → β) (work : Assembly α) (work' : Assembly β) :
    Prop where
  commutes (b) : work' (b.bare added) = (f (work b).1, (work b).2.bare added)
  counts (b) : ∃ counts : List Nat, (work b).2.journal = b.journal ++ counts.map .defined

theorem alongsidePure {f : α → β} (a : α) : Alongside added f (pure a) (pure (f a)) :=
  ⟨fun _ => rfl, fun b => ⟨[], (List.append_nil b.journal).symm⟩⟩

theorem alongsideBind {δ : Type} {f : α → β} {h : γ → δ} {work : Assembly α} {work' : Assembly β}
    {next : α → Assembly γ} {next' : β → Assembly δ} (first : Alongside added f work work')
    (rest : ∀ a, Alongside added h (next a) (next' (f a))) :
    Alongside added h (work >>= next) (work' >>= next') := by
  refine ⟨fun b => ?_, fun b => ?_⟩
  · change next' (work' (b.bare added)).1 (work' (b.bare added)).2 = _
    rw [first.commutes]
    exact (rest (work b).1).commutes (work b).2
  · obtain ⟨before, here⟩ := first.counts b
    obtain ⟨after, there⟩ := (rest (work b).1).counts (work b).2
    refine ⟨before ++ after, ?_⟩
    rw [List.map_append, ← List.append_assoc, ← here]
    exact there

theorem alongsideMap {f : α → β} {h : γ → β} {work : Assembly α} {work' : Assembly β}
    {make : α → γ} (first : Alongside added f work work') (same : ∀ a, h (make a) = f a) :
    Alongside added h (work >>= fun a => pure (make a)) work' := by
  refine ⟨fun b => ?_, first.counts⟩
  rw [first.commutes, ← same]
  rfl

theorem allocateAlongside : Alongside added id allocate allocate := by
  refine ⟨fun b => ?_, fun b => ⟨[], (List.append_nil b.journal).symm⟩⟩
  simp only [allocate, Blueprint.bare, Store.bareAllocate]
  rfl

theorem issueAlongside (cell : Nat) : Alongside added (Rule.bare added) (issue cell) (issue cell) :=
  ⟨fun _ => rfl, fun b => ⟨[], (List.append_nil b.journal).symm⟩⟩

theorem defineAlongside (alive : List Rule) (cell : Nat) (rule : Rule) :
    Alongside added (Rule.bare added) (define alive cell rule)
      (define (alive.map (Rule.bare added)) cell (rule.bare added)) := by
  refine ⟨fun b => ?_, fun b => ⟨[_], rfl⟩⟩
  have counted := (b.store.define cell rule).bareHandleCount added (rule :: alive) cell
  rw [List.map_cons] at counted
  simp only [define, Blueprint.bare, Store.bareDefine, counted]
  rfl

theorem allocateAllAlongside (names : List String) :
    Alongside added id (allocateAll names) (allocateAll names) := by
  induction names with
  | nil => exact alongsidePure _
  | cons name names ih =>
    exact alongsideBind allocateAlongside fun cell => alongsideBind ih fun cells => alongsidePure _

theorem defineAllAlongside (alive : List Rule) (cells : List (String × Nat)) (rules : List Rule) :
    Alongside added (Scope.bare added) (defineAll alive cells rules)
      (defineAll (alive.map (Rule.bare added)) cells (rules.map (Rule.bare added))) := by
  induction cells generalizing rules with
  | nil => exact alongsidePure _
  | cons entry cells ih =>
    cases rules with
    | nil => exact alongsidePure _
    | cons rule rules =>
      exact alongsideBind (defineAlongside alive entry.2 rule) fun finished =>
        alongsideBind (ih rules) fun scope => alongsidePure _

theorem lookupAlongside (scope : Scope) (name : String) :
    Alongside added (Rule.bare added) (lookup scope name) (lookup (scope.bare added) name) := by
  rw [lookup, lookup, Scope.bare, Table.findMap]
  cases Table.find? name scope with
  | none => exact alongsidePure _
  | some meaning =>
    cases meaning with
    | rule r => exact alongsidePure r
    | cell c => exact issueAlongside c

end Assembly

namespace Grammar
open Assembly

variable {added : String → Bool}

theorem bareNames (definitions : List (String × Grammar)) :
    (bareDefinitions added definitions).map Prod.fst = definitions.map Prod.fst := by
  induction definitions with
  | nil => rfl
  | cons d definitions ih =>
    obtain ⟨name, g⟩ := d
    rw [bareDefinitions, List.map_cons, List.map_cons, ih]

mutual

theorem assembleAlongside : ∀ (g : Grammar) (scope : Scope),
    Alongside added (Rule.bare added) (g.assemble scope) ((g.bare added).assemble (scope.bare added))
  | .leaf _, _ => alongsidePure _
  | .wrap w body, scope => by
    have inner := assembleAlongside body scope
    rw [bare]
    split
    · rename_i adds
      exact alongsideMap inner fun rule => by rw [Rule.bare, if_pos adds]
    · rename_i other
      refine alongsideBind inner fun rule => ?_
      have kept : Rule.wrap w (rule.bare added) = (Rule.wrap w rule).bare added := by
        rw [Rule.bare, if_neg other]
      rw [kept]
      exact alongsidePure _
  | .choice members, scope =>
    alongsideBind (assembleAllAlongside members scope) fun _ => alongsidePure _
  | .sequence members, scope =>
    alongsideBind (assembleAllAlongside members scope) fun _ => alongsidePure _
  | .choiceOf _ member last, scope =>
    alongsideBind (assembleAlongside member scope) fun _ =>
      alongsideBind (assembleAlongside last scope) fun _ =>
        alongsidePure _
  | .between left middle right, scope =>
    alongsideBind (assembleAlongside left scope) fun _ =>
      alongsideBind (assembleAlongside middle scope) fun _ =>
        alongsideBind (assembleAlongside right scope) fun _ =>
          alongsidePure _
  | .block start terminator escape, scope =>
    alongsideBind (assembleAlongside start scope) fun _ =>
      alongsideBind (assembleAlongside terminator scope) fun _ =>
        alongsideBind (assembleAlongside escape scope) fun _ =>
          alongsidePure _
  | .ref name, scope => lookupAlongside scope name
  | .recursive name body, scope =>
    alongsideBind allocateAlongside fun cell =>
      alongsideBind (assembleAlongside body ((name, .rule (.refer (.weak cell))) :: scope))
        fun rule => defineAlongside [] cell rule
  | .together definitions body, scope => by
    rw [bare, assemble, assemble, bareNames]
    refine alongsideBind (allocateAllAlongside _) fun cells => ?_
    have opened := assembleDefinitionsAlongside definitions
      ((cells.map fun d => (d.1, Meaning.cell d.2)).reverse ++ scope)
    rw [Scope.bareAppend, Scope.bareReverse, Scope.bareCells] at opened
    refine alongsideBind opened fun rules => ?_
    refine alongsideBind (defineAllAlongside rules cells rules) fun finished => ?_
    have closed := assembleAlongside body (finished.reverse ++ scope)
    rwa [Scope.bareAppend, Scope.bareReverse] at closed

theorem assembleAllAlongside : ∀ (gs : List Grammar) (scope : Scope),
    Alongside added (Rule.bareAll added) (assembleAll scope gs)
      (assembleAll (scope.bare added) (bareAll added gs))
  | [], _ => alongsidePure []
  | g :: gs, scope =>
    alongsideBind (assembleAlongside g scope) fun _ =>
      alongsideBind (assembleAllAlongside gs scope) fun _ => alongsidePure _

theorem assembleDefinitionsAlongside : ∀ (gs : List (String × Grammar)) (scope : Scope),
    Alongside added (List.map (Rule.bare added)) (assembleDefinitions scope gs)
      (assembleDefinitions (scope.bare added) (bareDefinitions added gs))
  | [], _ => alongsidePure []
  | (_, g) :: gs, scope =>
    alongsideBind (assembleAlongside g scope) fun _ =>
      alongsideBind (assembleDefinitionsAlongside gs scope) fun _ => alongsidePure _

end

end Grammar
end Descent
