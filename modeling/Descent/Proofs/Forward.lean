import Descent.Proofs.Depth
import Descent.Proofs.Lifetimes
/-!
How the answers of one parser change while a session goes on. Whatever is bound, defined or dropped under
other names, the parser answers as it did before, unless then it wanted for a definition, or by now
something that it watches is gone.
-/
namespace Descent

theorem Run.stopsMap {α β : Type} {r : Run α} {f : α → β} {stop : Stop} :
    (f <$> r).ending = .error stop ↔ r.ending = .error stop := by
  obtain ⟨journal, ending⟩ := r
  cases ending with
  | ok a => simp [Functor.map, andThen, behind]
  | error s => simp [Functor.map, andThen]

theorem Store.depthBoundGrows {σ σ' : Store} (longer : σ.cells.length ≤ σ'.cells.length) (input : Text) :
    σ.depthBound input ≤ σ'.depthBound input :=
  Nat.succ_le_succ (Nat.mul_le_mul_right _ longer)

namespace Session

variable {s t : Session} {rule : Rule} {r : Reference} {name : String} {input : Text}

theorem resolveForward (sound : s.Sound) (later : Later s t) (occurs : s.Occurs r) :
    s.store.resolve s.live r = .error .undefinedHandle ∨
    t.store.resolve t.live r = .error .droppedHandle ∨
    t.store.resolve t.live r = s.store.resolve s.live r := by
  have definition : s.store.definition? r.cell = none ∨
      t.store.definition? r.cell = s.store.definition? r.cell := by
    cases defined : s.store.definition? r.cell with
    | none => exact .inl rfl
    | some rule => exact .inr (later.keeps _ rule defined)
  by_cases owns : r.owned?.isSome
  · rw [Store.resolveOwning _ owns, Store.resolveOwning _ owns]
    rcases definition with wanting | same
    · exact .inl (by rw [wanting]; rfl)
    · exact .inr (.inr (by rw [same]))
  · cases r with
    | weak cell =>
      by_cases alive : cell ∈ t.live
      · have before : cell ∈ s.live := Classical.byContradiction fun dead =>
          deadStays later (sound.known _ occurs) (sound.watches cell occurs) dead alive
        rw [Store.resolveWatching _ before, Store.resolveWatching _ alive]
        rcases definition with wanting | same
        · exact .inl (by rw [show s.store.definition? cell = none from wanting]; rfl)
        · exact .inr (.inr (congrArg (Option.elim · _ _) same))
      · exact .inr (.inl (Store.resolveDead _ alive))
    | _ => exact absurd rfl owns

theorem invokeForward (sound : s.Sound) (later : Later s t) (depth : Nat) (occurs : s.Occurs r) :
    (s.store.invoke s.live depth r).Agrees (· = .panic .undefinedHandle) (· = .panic .droppedHandle)
      (fun _ => True) (t.store.invoke t.live depth r) := by
  induction depth generalizing r with
  | zero => exact Parser.agreesAnywhere _
  | succ depth ih =>
    intro input _
    rw [Store.invoke, Store.invoke]
    rcases resolveForward sound later occurs with wanting | dropped | same
    · rw [wanting]
      exact .inl ⟨_, rfl, rfl⟩
    · rw [dropped]
      exact .inr (.inl ⟨_, rfl, rfl⟩)
    · rw [same]
      cases leads : s.store.resolve s.live r with
      | error cause => exact Run.agreesRefl fun _ _ _ _ => trivial
      | ok rule =>
        -- What the rule of a cell refers to occurs as well, so the induction reaches it.
        have defined := Store.resolveDefinition leads
        have calls := rule.parserAgreesAnywhere fun r inside => ih (.inr ⟨_, rule, defined, inside⟩)
        exact calls input trivial

theorem ruleForward (sound : s.Sound) (later : Later s t) (held : rule ∈ s.held) (depth : Nat) :
    (rule.parser (s.store.invoke s.live depth)).Agrees (· = .panic .undefinedHandle)
      (· = .panic .droppedHandle) (fun _ => True) (rule.parser (t.store.invoke t.live depth)) :=
  rule.parserAgreesAnywhere fun _ inside => invokeForward sound later depth (.inl ⟨rule, held, inside⟩)

theorem parserForward (sound : s.Sound) (later : Later s t) (held : rule ∈ s.held) (input : Text)
    (wants : (s.parserOf rule input).ending ≠ .error (.panic .undefinedHandle))
    (ends : ¬ (s.parserOf rule input).Exhausted) :
    t.parserOf rule input = s.parserOf rule input ∨
      (t.parserOf rule input).ending = .error (.panic .droppedHandle) := by
  have deeper := Store.parserDeeper rule (Store.depthBoundGrows later.longer input) ends
  rcases ruleForward sound later held (t.store.depthBound input) input trivial with
    ⟨_, stops, rfl⟩ | ⟨_, stops, rfl⟩ | ⟨same, -⟩
  · exact absurd ((congrArg Run.ending deeper).symm.trans stops) wants
  · exact .inr stops
  · exact .inl (same.symm.trans deeper)

theorem endlessForward (sound : s.Sound) (later : Later s t) (held : rule ∈ s.held)
    (leaves : s.Leaves Leaf.LeavesEnd) (endless : (s.parserOf rule input).Exhausted) :
    (t.parserOf rule input).Exhausted ∨
      (t.parserOf rule input).ending = .error (.panic .droppedHandle) := by
  -- The later session may go deeper, which is no help to the earlier one.
  have deeper : (rule.parser (s.store.invoke s.live (t.store.depthBound input)) input).Exhausted :=
    Classical.byContradiction fun ends => ends
      (Store.depthSuffices leaves.store (leaves.held rule held) ends ▸ endless)
  rcases ruleForward sound later held (t.store.depthBound input) input trivial with
    ⟨_, stops, rfl⟩ | ⟨_, stops, rfl⟩ | ⟨same, -⟩
  · cases stops.symm.trans deeper
  · exact .inr stops
  · exact .inl ((congrArg Run.ending same).symm.trans deeper)

def Rebinds (s : Session) (name : String) : Step → Prop
  | .handle cell bound => bound = name ∧ (s.cells.find? cell).isSome
  | .define cell bound _ => bound = some name ∧ (s.cells.find? cell).isSome
  | .bind bound _ => bound = name
  | .recursive bound _ escapee probe _ => escapee = some name ∨ bound = some name ∧ probe = none
  | .drop dropped => dropped = name
  | _ => False

def Untouched (s : Session) (name : String) : List Step → Prop
  | [] => True
  | step :: steps => ¬ s.Rebinds name step ∧ Untouched (s.step step).1 name steps

theorem findNamed {bound : Option String} (other : bound ≠ some name) :
    (s.named bound rule).parsers.find? name = s.parsers.find? name := by
  cases bound with
  | none => rfl
  | some bound =>
    rw [named, Table.insert?, Table.findInsert, if_neg fun same => other (congrArg some same.symm)]

theorem stepFinds {st : Step} (untouched : ¬ s.Rebinds name st) :
    (s.step st).1.parsers.find? name = s.parsers.find? name := by
  cases st with
  | cell cell => rfl
  | handle cell bound =>
    cases found : s.cells.find? cell with
    | none => simp only [step, found]
    | some c =>
      simp only [step, found]
      exact findNamed fun same => untouched ⟨Option.some.inj same, by rw [found]; rfl⟩
  | define cell bound g =>
    cases found : s.cells.find? cell with
    | none => simp only [step, found]
    | some c =>
      rw [stepDefine found]
      exact findNamed fun same => untouched ⟨same, by rw [found]; rfl⟩
  | bind bound g => exact findNamed fun same => untouched (Option.some.inj same)
  | recursive bound self escapee probe g =>
    have escapes : escapee ≠ some name := fun same => untouched (.inl same)
    cases probe with
    | some probed => exact findNamed escapes
    | none =>
      rw [stepRecursive, findNamed fun same => untouched (.inr ⟨same, rfl⟩), findNamed escapes]
  | drop dropped =>
    have apart : ¬ name = dropped := fun same => untouched same.symm
    simp only [step]
    split
    · rw [Table.findErase, if_neg apart]
    · split <;> rfl
  | parse other text =>
    simp only [step]
    split <;> rfl
  | parseAll other text =>
    simp only [step]
    split <;> rfl
  | describe other =>
    simp only [step]
    split <;> rfl

theorem afterFinds {steps : List Step} (untouched : s.Untouched name steps) :
    (s.after steps).parsers.find? name = s.parsers.find? name := by
  induction steps generalizing s with
  | nil => rfl
  | cons step steps ih => exact (ih untouched.2).trans (stepFinds untouched.1)

theorem stepParse (found : s.parsers.find? name = some rule) (input : Text) :
    s.step (.parse name input) = (s, .found <$> s.parserOf rule input) := by
  simp only [step, parser?, found, parserOf]

theorem foundHeld (found : s.parsers.find? name = some rule) : rule ∈ s.held :=
  List.mem_map_of_mem (Table.memOfFind found)

/-- A parser whose name is left alone answers the same later on, or has lost what it watches; and what
it has lost it does not get back. Only where it wanted for a definition it may answer anything. A run
that never ends is no answer; it does not come to an end later. -/
theorem answersGoForward (before later : List Step) (name : String) (input : Text)
    (named : ((empty.after before).parsers.find? name).isSome)
    (untouched : (empty.after before).Untouched name later) :
    let first := ((empty.after before).step (.parse name input)).2
    let second := ((empty.after (before ++ later)).step (.parse name input)).2
    (first.ending ≠ .error (.panic .undefinedHandle) → ¬ first.Exhausted →
      second = first ∨ second.ending = .error (.panic .droppedHandle)) ∧
    (first.ending = .error (.panic .droppedHandle) →
      second.ending = .error (.panic .droppedHandle)) ∧
    ((∀ step ∈ before, step.Leaves Leaf.LeavesEnd) → first.Exhausted →
      second.Exhausted ∨ second.ending = .error (.panic .droppedHandle)) := by
  obtain ⟨rule, found⟩ := Option.isSome_iff_exists.mp named
  have sound := reachedSound before
  have passes := afterLater sound later
  have held := foundHeld found
  have found' := (afterFinds untouched).trans found
  rw [afterAppend, stepParse found, stepParse found']
  simp only [Run.Exhausted, ne_eq, Run.stopsMap]
  have forward := parserForward sound passes held input
  refine ⟨fun wants ends => ?_, fun dropped => ?_, fun leaves endless => ?_⟩
  · exact (forward wants ends).imp_left (congrArg (Answer.found <$> ·))
  · rcases forward (by simp [dropped]) (by simp [Run.Exhausted, dropped]) with same | stops
    · exact (congrArg Run.ending same).trans dropped
    · exact stops
  · exact endlessForward sound passes held (afterLeaves trivial emptyLeaves leaves) endless

theorem escapedHandleGoesForward :
    let before : List Step := [.recursive (some "letters") "self" (some "escaped") none
      (.choice [.sequence [.literal "a", .ref "self"], .literal "b"])]
    let later : List Step := [.bind "other" (.ref "escaped"), .drop "letters"]
    ((empty.after before).parsers.find? "escaped").isSome ∧
      (empty.after before).Untouched "escaped" later ∧
    let first := ((empty.after before).step (.parse "escaped" "aab".toList)).2
    let second := ((empty.after (before ++ later)).step (.parse "escaped" "aab".toList)).2
    (first.ending ≠ .error (.panic .undefinedHandle) → ¬ first.Exhausted →
      second = first ∨ second.ending = .error (.panic .droppedHandle)) ∧
    (first.ending = .error (.panic .droppedHandle) →
      second.ending = .error (.panic .droppedHandle)) ∧
    ((∀ step ∈ before, step.Leaves Leaf.LeavesEnd) → first.Exhausted →
      second.Exhausted ∨ second.ending = .error (.panic .droppedHandle)) := by
  intro before later
  have named : ((empty.after before).parsers.find? "escaped").isSome := by decide
  have untouched : (empty.after before).Untouched "escaped" later := by simp [Untouched, Rebinds, later]
  exact ⟨named, untouched, answersGoForward before later "escaped" _ named untouched⟩

end Session
end Descent
