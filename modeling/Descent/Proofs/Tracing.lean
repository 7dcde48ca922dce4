import Descent.Proofs.Erasure
import Descent.Proofs.Lifetimes
import Descent.Proofs.Marks
/-!
Spans that are put around parts of a grammar. Whatever is put into a span, in a grammar that is run alone
or in the grammars of a session, and however deep inside: every run ends as it did, and its journal is what
it was but for the events of the new spans.
-/
namespace Descent

namespace Run

variable {added : String → Bool} {α β : Type} {good : α → Prop} {r r' : Run α}

theorem erasesMap (f : α → β) (erases : r.Erases added good r') :
    (f <$> r).Erases added (fun _ => True) (f <$> r') := by
  rw [← bind_pure_comp, ← bind_pure_comp]
  exact erasesBind erases fun a _ => erasesComposes.pure trivial

theorem erasesDefined (counts : List Nat) (a : α) :
    Erases added (fun _ => True) ⟨counts.map .defined, .ok a⟩ ⟨counts.map .defined, .ok a⟩ :=
  ⟨rfl, fun _ _ => Journal.erasedDefined counts, fun _ _ => trivial⟩

end Run

theorem Run.differenceQuiet (a b : Nat) : (Run.difference a b).journal = [] := by
  unfold Run.difference
  split <;> rfl

namespace Parser

variable {added : String → Bool} {p q : Parser Value}

theorem parseAllErases (erases : p.Erases added q) (input : Text) :
    (parseAll p input).Erases added (fun _ => True) (parseAll q input) := by
  refine Run.erasesBind (erases input trivial) fun found _ => ?_
  cases found with
  | none => exact ⟨rfl, fun _ _ => rfl, fun _ _ => trivial⟩
  | some m =>
    dsimp only
    split
    · exact Run.erasesQuiet rfl fun _ _ => trivial
    · have offset : (Run.difference input.byteLength m.rest.byteLength).Erases added (fun _ => True)
          (Run.difference input.byteLength m.rest.byteLength) :=
        Run.erasesQuiet (Run.differenceQuiet _ _) fun _ _ => trivial
      exact Run.erasesBind offset fun _ _ => ⟨rfl, fun _ _ => rfl, fun _ _ => trivial⟩

end Parser

namespace Step

def mapGrammar (f : Grammar → Grammar) : Step → Step
  | .define c name g => .define c name (f g)
  | .bind name g => .bind name (f g)
  | .recursive name self escapee probe g => .recursive name self escapee probe (f g)
  | step => step

def All (holds : Grammar → Prop) : Step → Prop
  | .define _ _ g => holds g
  | .bind _ g => holds g
  | .recursive _ _ _ _ g => holds g
  | _ => True

variable {added : String → Bool} {step : Step} {marks : Marks}

theorem markedLeaves (own : step.All fun g => g.Leaves Leaf.LeavesEnd ∧ g.Unlabelled added) :
    (step.mapGrammar (Grammar.marked marks)).Leaves Leaf.LeavesEnd := by
  cases step with
  | define c name g => exact Grammar.markedLeaves marks own.1
  | bind name g => exact Grammar.markedLeaves marks own.1
  | recursive name self escapee probe g => exact Grammar.markedLeaves marks own.1
  | _ => trivial

theorem markedBare (within : marks.Within added)
    (own : step.All fun g => g.Leaves Leaf.LeavesEnd ∧ g.Unlabelled added) :
    (step.mapGrammar (Grammar.marked marks)).mapGrammar (Grammar.bare added) = step := by
  have same (g : Grammar) (unlabelled : g.Unlabelled added) : (g.marked marks).bare added = g :=
    (Grammar.markedBare within g).trans (g.bareItself unlabelled)
  cases step with
  | define c name g => exact congrArg (Step.define c name) (same g own.2)
  | bind name g => exact congrArg (Step.bind name) (same g own.2)
  | recursive name self escapee probe g =>
    exact congrArg (Step.recursive name self escapee probe) (same g own.2)
  | _ => rfl

end Step

namespace Session

variable {added : String → Bool} {s : Session} {α β : Type}

def bare (added : String → Bool) (s : Session) : Session :=
  ⟨s.store.bare added, s.parsers.map fun entry => (entry.1, entry.2.bare added), s.cells⟩

theorem bareHeld (s : Session) : (s.bare added).held = s.held.map (Rule.bare added) := by
  simp [held, bare]

theorem bareScope (s : Session) : (s.bare added).scope = s.scope.bare added := by
  simp [scope, bare, Scope.bare, Meaning.bare, Function.comp_def]

theorem bareNamed {t : Session} (same : t = s.bare added) (name : Option String) (rule : Rule) :
    t.named name (rule.bare added) = (s.named name rule).bare added := by
  subst same
  cases name with
  | none => rfl
  | some name => simp only [named, bare, Table.insert?, Table.insertMap]

theorem bareReferring {t : Session} (same : t = s.bare added) (name : Option String) (r : Reference) :
    t.named name (.refer r) = (s.named name (.refer r)).bare added :=
  bareNamed same name (.refer r)

theorem assembledErases {t : Session} (same : t = s.bare added) {work work' : Assembly Rule}
    (along : Assembly.Alongside added (Rule.bare added) work work') (finish : Session → Rule → Session)
    (commutes : ∀ u rule, finish (u.bare added) (rule.bare added) = (finish u rule).bare added)
    (answer : Answer) :
    finish (t.assembling work').2.1 (t.assembling work').1 =
        (finish (s.assembling work).2.1 (s.assembling work).1).bare added ∧
      Run.Erases added (fun _ => True) ⟨(s.assembling work).2.2, .ok answer⟩
        ⟨(t.assembling work').2.2, .ok answer⟩ := by
  subst same
  have assembles : (s.bare added).assembling work' = ((s.assembling work).1.bare added,
      (s.assembling work).2.1.bare added, (s.assembling work).2.2) := by
    have made := along.commutes ⟨s.store, []⟩
    simp only [assembling, bare, Blueprint.bare] at made ⊢
    rw [made]
    rfl
  obtain ⟨counts, journal⟩ := along.counts ⟨s.store, []⟩
  have written : (s.assembling work).2.2 = counts.map .defined := journal
  rw [assembles, written]
  exact ⟨commutes _ _, Run.erasesDefined counts answer⟩

theorem bareFind (s : Session) (name : String) :
    (s.bare added).parsers.find? name = (s.parsers.find? name).map (Rule.bare added) :=
  Table.findMap _ _ _

theorem parserErases (leaves : s.Leaves Leaf.LeavesEnd) (name : String) :
    s.parser? name = none ∧ (s.bare added).parser? name = none ∨
      ∃ p q, s.parser? name = some p ∧ (s.bare added).parser? name = some q ∧ p.Erases added q := by
  have cells : (s.bare added).cells.find? name = s.cells.find? name := rfl
  simp only [parser?, bareFind, cells, bareHeld]
  cases found : s.parsers.find? name with
  | some rule =>
    have own : rule.Leaves Leaf.LeavesEnd :=
      leaves.held rule (List.mem_map.mpr ⟨_, Table.memOfFind found, rfl⟩)
    exact .inr ⟨_, _, rfl, rfl, Store.parserErases leaves.store s.held own⟩
  | none =>
    cases s.cells.find? name with
    | none => exact .inl ⟨rfl, rfl⟩
    | some cell =>
      have own : (Rule.refer (s.store.issue cell).1).Leaves Leaf.LeavesEnd := trivial
      exact .inr ⟨_, _, rfl, rfl, Store.parserErases leaves.store s.held own⟩

/-- The session without the spans goes to the session without the spans, and answers the same but for the
spans. -/
def StepErases (added : String → Bool) (s : Session) (step : Step) : Prop :=
  ((s.bare added).step (step.mapGrammar (Grammar.bare added))).1 = (s.step step).1.bare added ∧
    (s.step step).2.Erases added (fun _ => True)
      ((s.bare added).step (step.mapGrammar (Grammar.bare added))).2

theorem stepErases (leaves : s.Leaves Leaf.LeavesEnd) {step : Step}
    (own : step.Leaves Leaf.LeavesEnd) : s.StepErases added step := by
  have done : ∀ answer : Answer, (pure answer : Run Answer).Erases added (fun _ => True) (pure answer) :=
    fun answer => Run.erasesComposes.pure trivial
  have cells : (s.bare added).cells = s.cells := rfl
  have allocates := s.store.bareAllocate added
  have assembles : ∀ (scope : Scope) (g : Grammar), Assembly.Alongside added (Rule.bare added)
      (g.assemble scope) ((g.bare added).assemble (scope.bare added)) :=
    fun scope g => g.assembleAlongside scope
  unfold StepErases
  cases step with
  | cell name =>
    simp only [step, Step.mapGrammar, bare, Store.bareAllocate, true_and]
    exact done _
  | handle cell name =>
    simp only [step, Step.mapGrammar, cells]
    cases s.cells.find? cell with
    | none => exact ⟨rfl, done _⟩
    | some c => exact ⟨bareReferring (by rfl) _ _, done _⟩
  | define cell name g =>
    simp only [step, Step.mapGrammar, cells, bareHeld, bareScope]
    cases s.cells.find? cell with
    | none => exact ⟨rfl, done _⟩
    | some c =>
      have along := Assembly.alongsideBind (assembles s.scope g) fun definition =>
        Assembly.defineAlongside s.held c definition
      exact assembledErases rfl along
        (fun t rule => Session.named {t with cells := t.cells.erase cell} name rule)
        (fun t rule => bareNamed (by rfl) name rule) _
  | bind name g =>
    simp only [step, Step.mapGrammar, bareScope]
    exact assembledErases rfl (assembles s.scope g) (fun t rule => t.named (some name) rule)
      (fun t rule => bareNamed rfl (some name) rule) _
  | recursive name self escapee probe g =>
    cases probe with
    | some input =>
      have own : (Rule.refer (.weak s.store.allocate.1)).Leaves Leaf.LeavesEnd := trivial
      have kept := (Assembly.allocateLeaves ⟨s.store, []⟩ leaves.store).2
      have runs : Parser.Erases added (s.store.allocate.2.parser [.refer (.owner s.store.allocate.1)]
          (.refer (.weak s.store.allocate.1))) _ := Store.parserErases kept _ own
      simp only [step, Step.mapGrammar, bare, allocates]
      exact ⟨bareReferring (by rfl) _ _, Run.erasesMap _ (runs input trivial)⟩
    | none =>
      have kept : (escapee.elim [] fun _ => [Rule.refer (.weak s.store.allocate.1)]).map (Rule.bare added) =
          escapee.elim [] fun _ => [.refer (.weak s.store.allocate.1)] := by
        cases escapee <;> rfl
      have along := Assembly.alongsideBind
        (assembles ((self, .rule (.refer (.weak s.store.allocate.1))) :: s.scope) g) fun definition =>
          Assembly.defineAlongside (escapee.elim [] fun _ => [.refer (.weak s.store.allocate.1)])
            s.store.allocate.1 definition
      rw [kept] at along
      simp only [step, Step.mapGrammar, bareScope]
      simp only [bare, allocates]
      exact assembledErases (s := {s with store := s.store.allocate.2}) rfl along
        (fun t rule => (t.named escapee (.refer (.weak s.store.allocate.1))).named name rule)
        (fun t rule => bareNamed (bareReferring rfl escapee _) name rule) _
  | drop name =>
    simp only [step, Step.mapGrammar, bareFind, Option.isSome_map, cells]
    split
    · refine ⟨?_, done _⟩
      simp only [bare, Table.eraseMap]
    · split <;> exact ⟨rfl, done _⟩
  | parse name input =>
    simp only [step, Step.mapGrammar]
    rcases parserErases leaves name with ⟨none, none'⟩ | ⟨p, q, known, known', erases⟩
    · rw [none, none']
      exact ⟨rfl, done _⟩
    · rw [known, known']
      exact ⟨rfl, Run.erasesMap _ (erases input trivial)⟩
  | parseAll name input =>
    simp only [step, Step.mapGrammar]
    rcases parserErases leaves name with ⟨none, none'⟩ | ⟨p, q, known, known', erases⟩
    · rw [none, none']
      exact ⟨rfl, done _⟩
    · rw [known, known']
      exact ⟨rfl, Run.erasesMap _ (Parser.parseAllErases erases input)⟩
  | describe name =>
    simp only [step, Step.mapGrammar, bareFind, cells]
    cases s.parsers.find? name with
    | some rule => exact ⟨rfl, done _⟩
    | none => cases s.cells.find? name <;> exact ⟨rfl, done _⟩

theorem runCons (s : Session) (first : Step) (later : List Step) :
    s.run (first :: later) = (s.step first).2 :: (s.step first).1.run later := rfl

theorem runErases (leaves : s.Leaves Leaf.LeavesEnd) {steps : List Step}
    (own : ∀ step ∈ steps, step.Leaves Leaf.LeavesEnd) :
    List.Forall₂ (Run.Erases added fun _ => True) (s.run steps)
      ((s.bare added).run (steps.map (Step.mapGrammar (Grammar.bare added)))) := by
  induction steps generalizing s with
  | nil => exact .nil
  | cons step steps ih =>
    obtain ⟨first, rest⟩ := List.forall_mem_cons.mp own
    have erases : s.StepErases added step := stepErases leaves first
    obtain ⟨next, answers⟩ := erases
    rw [List.map_cons, runCons, runCons, next]
    exact .cons answers (ih (stepLeaves trivial leaves first) rest)

end Session

namespace Grammar

variable {added : String → Bool}

theorem bareAssembled (added : String → Bool) (g : Grammar) : ∃ counts : List Nat, g.assembled.journal = counts.map .defined ∧
    (g.bare added).assembled =
      ⟨g.assembled.store.bare added, g.assembled.rule.bare added, g.assembled.journal⟩ := by
  have along : Assembly.Alongside added (Rule.bare added) (g.assemble []) ((g.bare added).assemble []) :=
    g.assembleAlongside []
  obtain ⟨counts, journal⟩ := along.counts ⟨Store.empty, []⟩
  have made : (g.bare added).assemble [] ⟨Store.empty, []⟩ = _ := along.commutes ⟨Store.empty, []⟩
  refine ⟨counts, journal, ?_⟩
  rw [Grammar.assembled, made]
  rfl

theorem parserErases {g : Grammar} (own : g.Leaves Leaf.LeavesEnd) :
    g.parser.Erases added (g.bare added).parser := by
  obtain ⟨counts, -, assembled⟩ := g.bareAssembled added
  obtain ⟨ruleEnds, leaves⟩ := assembledLeaves own trivial
  rw [Grammar.parser, Grammar.parser, assembled]
  exact Store.parserErases leaves [g.assembled.rule] ruleEnds

end Grammar

namespace Run

variable {added : String → Bool} {α : Type} {good : α → Prop} {r r' : Run α}

def UpToSpans (added : String → Bool) (r r' : Run α) : Prop :=
  r.ending = r'.ending ∧ Journal.erased added [] r.journal = r'.journal

theorem erasesBehind (counts : List Nat) (erases : r.Erases added good r') :
    (r.behind (counts.map .defined)).UpToSpans added (r'.behind (counts.map .defined)) := by
  have erased := erases.journal [] []
  rw [List.append_nil] at erased
  refine ⟨erases.ending, ?_⟩
  rw [behind, behind, Journal.erasedDefined, erased]
  exact congrArg (_ ++ ·) (List.append_nil _)

theorem erasesAlone (erases : r.Erases added good r') : r.UpToSpans added r' := erasesBehind [] erases

end Run

/-- Spans with labels of their own, around whatever parts of a grammar, do not change what happens:
neither where the grammar is run alone, nor in a session where it is used by others, kept or dropped. The
journal begins with the definitions, which count the same handles. -/
theorem tracingIsTransparent (added : String → Bool) :
    (∀ (g : Grammar) (marks : Marks), g.Leaves Leaf.LeavesEnd → g.Unlabelled added →
      marks.Within added → ∀ input : Text,
        let marked := g.marked marks
        ((marked.parser input).behind marked.assembled.journal).UpToSpans added
          ((g.parser input).behind g.assembled.journal) ∧
        ((parseAll marked.parser input).behind marked.assembled.journal).UpToSpans added
          ((parseAll g.parser input).behind g.assembled.journal)) ∧
    ∀ steps : List (Step × Marks), (∀ s ∈ steps, s.2.Within added ∧
        s.1.All fun g => g.Leaves Leaf.LeavesEnd ∧ g.Unlabelled added) →
      List.Forall₂ (Run.UpToSpans added)
        (Session.empty.run (steps.map fun s => s.1.mapGrammar (Grammar.marked s.2)))
        (Session.empty.run (steps.map Prod.fst)) := by
  constructor
  · intro g marks own unlabelled within input marked
    have bare : marked.bare added = g := (Grammar.markedBare within g).trans (g.bareItself unlabelled)
    have erases : marked.parser.Erases added (marked.bare added).parser :=
      Grammar.parserErases (Grammar.markedLeaves marks own)
    obtain ⟨counts, journal, assembled⟩ := marked.bareAssembled added
    rw [bare] at erases assembled
    have same : g.assembled.journal = marked.assembled.journal := by rw [assembled]
    rw [same, journal]
    exact ⟨Run.erasesBehind counts (erases input trivial),
      Run.erasesBehind counts (Parser.parseAllErases erases input)⟩
  · intro steps own
    have leaves : ∀ step ∈ steps.map (fun s => s.1.mapGrammar (Grammar.marked s.2)),
        step.Leaves Leaf.LeavesEnd := by
      simp only [List.forall_mem_map]
      exact fun s inside => Step.markedLeaves (own s inside).2
    have bare : (steps.map fun s => s.1.mapGrammar (Grammar.marked s.2)).map
        (Step.mapGrammar (Grammar.bare added)) = steps.map Prod.fst := by
      rw [List.map_map]
      exact List.map_congr_left fun s inside => Step.markedBare (own s inside).1 (own s inside).2
    have erases : List.Forall₂ (Run.Erases added fun _ => True) _ ((Session.empty.bare added).run _) :=
      Session.runErases Session.emptyLeaves leaves
    rw [bare] at erases
    exact erases.imp fun _ _ => Run.erasesAlone

theorem tracedNestingIsTransparent :
    let nested : Grammar := .recursive "nested" (.wrap (.traced "level") (.choice
      [.sequence [.literal "(", .wrap .skip (.ref "nested"), .literal ")"], .wrap .notAhead (.literal "(")]))
    let marks : Marks := fun p => if p = [] ∨ p = [0, 0, 0, 1, 0] ∨ p = [0, 0, 1, 0] then some "new" else none
    let added : String → Bool := fun label => label == "new"
    nested.Leaves Leaf.LeavesEnd ∧ nested.Unlabelled added ∧ marks.Within added ∧
    (((nested.marked marks).parser "(()".toList).behind (nested.marked marks).assembled.journal).UpToSpans
      added ((nested.parser "(()".toList).behind nested.assembled.journal) ∧
    List.Forall₂ (Run.UpToSpans added)
      (Session.empty.run [.bind "copy" (nested.marked marks), .parse "copy" "(()".toList])
      (Session.empty.run [.bind "copy" nested, .parse "copy" "(()".toList]) := by
  intro nested marks added
  have own : nested.Leaves Leaf.LeavesEnd := by
    repeat' constructor
  have unlabelled : nested.Unlabelled added := by
    simp [nested, added, Grammar.Unlabelled, Grammar.Made, Grammar.MadeAll, Grammar.literal, Wrapper.adds]
  have within : marks.Within added := by
    intro p label marked
    simp only [marks] at marked
    split at marked
    · cases marked
      rfl
    · contradiction
  obtain ⟨alone, together⟩ := tracingIsTransparent added
  have steps := together [(.bind "copy" nested, marks), (.parse "copy" "(()".toList, marks)]
    (by simp [Step.All, own, unlabelled, within])
  exact ⟨own, unlabelled, within, (alone nested marks own unlabelled within _).1, steps⟩

end Descent
