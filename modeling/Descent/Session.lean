import Descent.Blueprint
import Descent.ParseAll
import Descent.Table
/-!
Sessions: a store with names for parsers and, apart from them, names for cells that are not defined
yet. To bind a name again, or to drop it, lets go of what it named; what nothing holds any more is
not alive.
-/
namespace Descent

structure Session where
  store : Store
  parsers : Table Rule
  cells : Table Nat

inductive Step where
  | cell (cell : String)
  | handle (cell name : String)
  | define (cell : String) (name : Option String) (g : Grammar)
  | bind (name : String) (g : Grammar)
  /-- A grammar in which `self` refers to the grammar itself. The handle is invoked on `probe`
  first, and a copy of it is kept as `escapee`. -/
  | recursive (name : Option String) (self : String) (escapee : Option String)
      (probe : Option Text) (g : Grammar)
  | drop (name : String)
  | parse (name : String) (input : Text)
  | parseAll (name : String) (input : Text)
  | describe (name : String)

inductive Kind where
  | parser
  | undefinedCell
  deriving DecidableEq, Repr

def Kind.message : Kind → String
  | .parser => "Parser \x7b .. \x7d"
  | .undefinedCell => "Deferred \x7b defined: false \x7d"

/-- What a step answers, unless it panics. A step that names what does not exist answers `unknown`
and changes nothing. -/
inductive Answer where
  | done
  | found (m : Option (Match Value))
  | all (values : Except ParseError (List Value))
  | described (kind : Kind)
  | unknown

namespace Session

def empty : Session :=
  ⟨Store.empty, [], []⟩

def held (s : Session) : List Rule :=
  s.parsers.map Prod.snd

def scope (s : Session) : Scope :=
  s.parsers.map (fun p => (p.1, .rule p.2)) ++ s.cells.map (fun c => (c.1, .cell c.2))

def assembling {α : Type} (s : Session) (work : Assembly α) : α × Session × Journal :=
  let (a, b) := work ⟨s.store, []⟩
  (a, {s with store := b.store}, b.journal)

def named (s : Session) (name : Option String) (rule : Rule) : Session :=
  {s with parsers := s.parsers.insert? name rule}

def parser? (s : Session) (name : String) : Option (Parser Value) :=
  match s.parsers.find? name, s.cells.find? name with
  | some rule, _ => some (s.store.parser s.held rule)
  | none, some cell => some (s.store.parser s.held (.refer (s.store.issue cell).1))
  | none, none => none

def step (s : Session) : Step → Session × Run Answer
  | .cell name =>
    let (cell, store) := s.store.allocate
    ({s with store := store, cells := s.cells.insert name cell}, pure .done)
  | .handle cell name =>
    match s.cells.find? cell with
    | none => (s, pure .unknown)
    | some c =>
      let (r, store) := s.store.issue c
      ({s with store := store}.named (some name) (.refer r), pure .done)
  | .define cell name g =>
    match s.cells.find? cell with
    | none => (s, pure .unknown)
    | some c =>
      let (rule, t, journal) := s.assembling do
        let definition ← g.assemble s.scope
        Assembly.define s.held c definition
      ({t with cells := t.cells.erase cell}.named name rule, ⟨journal, .ok .done⟩)
  | .bind name g =>
    let (rule, t, journal) := s.assembling (g.assemble s.scope)
    (t.named (some name) rule, ⟨journal, .ok .done⟩)
  | .recursive name self escapee probe g =>
    let (cell, store) := s.store.allocate
    let t := {s with store := store}
    let weak := Rule.refer (.weak cell)
    match probe with
    | some input =>
      (t.named escapee weak, .found <$> store.parser [.refer (.owner cell)] weak input)
    | none =>
      let (rule, t, journal) := t.assembling do
        let definition ← g.assemble ((self, .rule weak) :: s.scope)
        Assembly.define (escapee.elim [] fun _ => [weak]) cell definition
      ((t.named escapee weak).named name rule, ⟨journal, .ok .done⟩)
  | .drop name =>
    if (s.parsers.find? name).isSome then
      ({s with parsers := s.parsers.erase name}, pure .done)
    else if (s.cells.find? name).isSome then
      ({s with cells := s.cells.erase name}, pure .done)
    else
      (s, pure .unknown)
  | .parse name input =>
    match s.parser? name with
    | none => (s, pure .unknown)
    | some p => (s, .found <$> p input)
  | .parseAll name input =>
    match s.parser? name with
    | none => (s, pure .unknown)
    | some p => (s, .all <$> Descent.parseAll p input)
  | .describe name =>
    match s.parsers.find? name, s.cells.find? name with
    | some _, _ => (s, pure (.described .parser))
    | none, some _ => (s, pure (.described .undefinedCell))
    | none, none => (s, pure .unknown)

def after (s : Session) (steps : List Step) : Session :=
  steps.foldl (fun s step => (s.step step).1) s

def run (s : Session) : List Step → List (Run Answer)
  | [] => []
  | first :: steps =>
    let (t, answer) := s.step first
    answer :: run t steps

end Session
end Descent
