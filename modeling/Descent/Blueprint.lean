import Descent.Store
import Descent.Table
/-!
Assembling a grammar. Names are resolved against a scope, from the inside out. A name that is being
defined refers to a cell; once the cell is filled, the journal has the number of the handles that
are alive then.
-/
namespace Descent

/-- What a name stands for: a rule, of which every use is a copy, or a cell without a definition,
of which every use is a new handle. -/
inductive Meaning where
  | rule (r : Rule)
  | cell (c : Nat)

abbrev Scope := List (String × Meaning)

structure Blueprint where
  store : Store
  journal : Journal

abbrev Assembly := StateM Blueprint

namespace Assembly

def allocate : Assembly Nat := fun b =>
  let (cell, store) := b.store.allocate
  (cell, {b with store := store})

def issue (cell : Nat) : Assembly Rule := fun b =>
  let (r, store) := b.store.issue cell
  (.refer r, {b with store := store})

def define (alive : List Rule) (cell : Nat) (rule : Rule) : Assembly Rule := fun b =>
  let store := b.store.define cell rule
  let handles := store.handleCount (rule :: alive) cell
  (.refer (.owner cell), ⟨store, b.journal ++ [.defined handles]⟩)

def allocateAll : List String → Assembly (List (String × Nat))
  | [] => pure []
  | name :: names => do
    let cell ← allocate
    let cells ← allocateAll names
    pure ((name, cell) :: cells)

def defineAll (alive : List Rule) : List (String × Nat) → List Rule → Assembly Scope
  | (name, cell) :: cells, rule :: rules => do
    let finished ← define alive cell rule
    let scope ← defineAll alive cells rules
    pure ((name, .rule finished) :: scope)
  | _, _ => pure []

def lookup (scope : Scope) (name : String) : Assembly Rule :=
  match Table.find? name scope with
  | none => pure (.leaf .fail)
  | some (.rule r) => pure r
  | some (.cell c) => issue c

end Assembly

namespace Grammar
open Assembly (allocate allocateAll define defineAll lookup)

mutual

def assemble (scope : Scope) : Grammar → Assembly Rule
  | .leaf l => pure (.leaf l)
  | .wrap w body => return .wrap w (← assemble scope body)
  | .choice members => return .choice (← assembleAll scope members)
  | .sequence members => return .sequence (← assembleAll scope members)
  | .choiceOf n member last => return .choiceOf n (← assemble scope member) (← assemble scope last)
  | .between left middle right =>
    return .between (← assemble scope left) (← assemble scope middle) (← assemble scope right)
  | .block start terminator escape =>
    return .block (← assemble scope start) (← assemble scope terminator) (← assemble scope escape)
  | .ref name => lookup scope name
  | .recursive name body => do
    let cell ← allocate
    let rule ← assemble ((name, .rule (.refer (.weak cell))) :: scope) body
    define [] cell rule
  | .together definitions body => do
    let cells ← allocateAll (definitions.map Prod.fst)
    let names := cells.map fun d => (d.1, Meaning.cell d.2)
    let rules ← assembleDefinitions (names.reverse ++ scope) definitions
    let finished ← defineAll rules cells rules
    assemble (finished.reverse ++ scope) body

def assembleAll (scope : Scope) : List Grammar → Assembly (List Rule)
  | [] => pure []
  | g :: gs => return (← assemble scope g) :: (← assembleAll scope gs)

def assembleDefinitions (scope : Scope) : List (String × Grammar) → Assembly (List Rule)
  | [] => pure []
  | (_, g) :: gs => return (← assemble scope g) :: (← assembleDefinitions scope gs)

end

end Grammar

structure Assembled where
  store : Store
  rule : Rule
  journal : Journal

def Grammar.assembled (g : Grammar) : Assembled :=
  let (rule, b) := assemble [] g ⟨Store.empty, []⟩
  ⟨b.store, rule, b.journal⟩

def Assembled.parser (a : Assembled) : Parser Value :=
  a.store.parser [a.rule] a.rule

def Grammar.parser (g : Grammar) : Parser Value :=
  g.assembled.parser

end Descent
