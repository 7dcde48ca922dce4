import Mathlib.Logic.Relation
import Descent.Proofs.Agreement
import Descent.Proofs.Depth
import Descent.Proofs.Outcome
/-!
What a run comes to. A run goes from rule to rule: from a rule to its parts, on what the parts before left,
and from a reference to its definition. What holds of a run when it holds of the runs it comes to at once
holds of every run.
-/
namespace Descent

def Wrapper.runsOnce : Wrapper → Bool
  | .many | .many1 | .times _ => false
  | _ => true

def Rule.spelled? : Rule → Option Rule
  | .wrap .many1 body => some (.sequence [body, .wrap .many body])
  | .wrap (.times n) body => some (.sequence (List.replicate n body))
  | .choiceOf n member last => some (.choice (List.replicate n member ++ [last]))
  | .between left middle right => some (.sequence [.wrap .skip left, middle, .wrap .skip right])
  | .block start terminator escape => some (.sequence [start,
      .wrap .many (.choice [escape, .sequence [.wrap .notAhead terminator, .leaf .anyChar]]), terminator])
  | _ => none

theorem Rule.parsersEq (call : Reference → Parser Value) (rules : List Rule) :
    parsers call rules = rules.map (parser call) := by
  induction rules with
  | nil => rfl
  | cons rule rules ih => rw [parsers, ih, List.map_cons]

theorem Rule.spelledParser (call : Reference → Parser Value) {rule long : Rule}
    (spelled : rule.spelled? = some long) : long.parser call = rule.parser call := by
  unfold spelled? at spelled
  split at spelled
  · cases spelled
    rfl
  · cases spelled
    simp [parser, parsersEq, Wrapper.parser]
  · cases spelled
    simp [parser, parsersEq]
  · cases spelled
    rfl
  · cases spelled
    rfl
  · contradiction

theorem Rule.spelledLeaves {good : Leaf → Prop} (scalar : good .anyChar) {rule long : Rule}
    (spelled : rule.spelled? = some long) (own : rule.Leaves good) : long.Leaves good := by
  unfold spelled? at spelled
  split at spelled
  · cases spelled
    exact ⟨own, own, trivial⟩
  · cases spelled
    exact leavesOfAllIff.mpr fun rule copy => List.eq_of_mem_replicate copy ▸ own
  · cases spelled
    refine leavesOfAllIff.mpr (List.forall_mem_append.mpr ⟨fun rule copy => ?_, by simp [own.2]⟩)
    exact List.eq_of_mem_replicate copy ▸ own.1
  · cases spelled
    exact ⟨own.1, own.2.1, own.2.2, trivial⟩
  · cases spelled
    exact ⟨own.1, ⟨own.2.2, ⟨own.2.1, scalar, trivial⟩, trivial⟩, own.2.1, trivial⟩
  · contradiction

structure Visit where
  rule : Rule
  input : Text

namespace Store

def Finds (σ : Store) (live : List Nat) (rule : Rule) (input : Text) (found : Option (Match Value)) :
    Prop :=
  ∃ depth, (rule.parser (σ.invoke live depth)).Yields input found

inductive Calls (σ : Store) (live : List Nat) : Visit → Visit → Prop
  | spelled {rule long : Rule} {input} (short : rule.spelled? = some long) :
      Calls σ live ⟨rule, input⟩ ⟨long, input⟩
  | body {w body input} (once : w.runsOnce = true) : Calls σ live ⟨.wrap w body, input⟩ ⟨body, input⟩
  | turn {body input} : Calls σ live ⟨.wrap .many body, input⟩ ⟨body, input⟩
  | again {body input m} (found : σ.Finds live body input (some m))
      (shrinks : m.rest.byteLength < input.byteLength) :
      Calls σ live ⟨.wrap .many body, input⟩ ⟨.wrap .many body, m.rest⟩
  | member {rule rules input} : Calls σ live ⟨.choice (rule :: rules), input⟩ ⟨rule, input⟩
  | otherwise {rule rules input} (missed : σ.Finds live rule input none) :
      Calls σ live ⟨.choice (rule :: rules), input⟩ ⟨.choice rules, input⟩
  | first {rule rules input} : Calls σ live ⟨.sequence (rule :: rules), input⟩ ⟨rule, input⟩
  | next {rule rules input m} (found : σ.Finds live rule input (some m)) :
      Calls σ live ⟨.sequence (rule :: rules), input⟩ ⟨.sequence rules, m.rest⟩
  | refer {r rule input} (resolved : σ.resolve live r = .ok rule) :
      Calls σ live ⟨.refer r, input⟩ ⟨rule, input⟩

variable {σ : Store} {live : List Nat} {good : Leaf → Prop} {holds : Nat → Visit → Prop}

theorem callsLeaves (scalar : good .anyChar) (leaves : σ.Leaves good) {v q : Visit}
    (calls : σ.Calls live v q) (own : v.rule.Leaves good) : q.rule.Leaves good := by
  cases calls with
  | spelled short => exact Rule.spelledLeaves scalar short own
  | body _ => exact own
  | turn => exact own
  | again _ _ => exact own
  | member => exact own.1
  | otherwise _ => exact own.2
  | first => exact own.1
  | next _ => exact own.2
  | refer resolved => exact leaves _ (memOfDefinition (resolveDefinition resolved))

theorem reachedLeaves (scalar : good .anyChar) (leaves : σ.Leaves good) {v q : Visit}
    (reached : Relation.ReflTransGen (σ.Calls live) v q) (own : v.rule.Leaves good) :
    q.rule.Leaves good := by
  induction reached with
  | refl => exact own
  | tail _ calls ih => exact callsLeaves scalar leaves calls ih

/-- A property of runs, at each depth, that a run has when the runs it comes to at once have it. -/
structure Hereditary (σ : Store) (live : List Nat) (good : Leaf → Prop) (holds : Nat → Visit → Prop) :
    Prop where
  scalar : good .anyChar
  leaf : ∀ {depth l input}, good l → holds depth ⟨.leaf l, input⟩
  spelled : ∀ {depth input} {rule long : Rule}, rule.spelled? = some long →
    holds depth ⟨long, input⟩ → holds depth ⟨rule, input⟩
  once : ∀ {depth w body input}, w.runsOnce = true → holds depth ⟨body, input⟩ →
    holds depth ⟨.wrap w body, input⟩
  many : ∀ {depth body input}, body.Leaves good → holds depth ⟨body, input⟩ →
    (∀ m, (body.parser (σ.invoke live depth)).Yields input (some m) →
      m.rest.byteLength < input.byteLength → holds depth ⟨.wrap .many body, m.rest⟩) →
    holds depth ⟨.wrap .many body, input⟩
  noMember : ∀ {depth input}, holds depth ⟨.choice [], input⟩
  member : ∀ {depth rule rules input}, holds depth ⟨rule, input⟩ →
    ((rule.parser (σ.invoke live depth)).Yields input none → holds depth ⟨.choice rules, input⟩) →
    holds depth ⟨.choice (rule :: rules), input⟩
  noStep : ∀ {depth input}, holds depth ⟨.sequence [], input⟩
  step : ∀ {depth rule rules input}, holds depth ⟨rule, input⟩ →
    (∀ m, (rule.parser (σ.invoke live depth)).Yields input (some m) →
      holds depth ⟨.sequence rules, m.rest⟩) →
    holds depth ⟨.sequence (rule :: rules), input⟩
  exhausted : ∀ {r input}, holds 0 ⟨.refer r, input⟩
  lost : ∀ {depth r input cause}, σ.resolve live r = .error cause →
    holds (depth + 1) ⟨.refer r, input⟩
  refer : ∀ {depth r rule input}, σ.resolve live r = .ok rule → holds depth ⟨rule, input⟩ →
    holds (depth + 1) ⟨.refer r, input⟩

namespace Hereditary

variable {rule body : Rule} {rules : List Rule} {depth : Nat}

theorem choice (hereditary : σ.Hereditary live good holds)
    (members : ∀ rule ∈ rules, ∀ input, holds depth ⟨rule, input⟩) (input : Text) :
    holds depth ⟨.choice rules, input⟩ := by
  induction rules with
  | nil => exact hereditary.noMember
  | cons rule rules ih =>
    obtain ⟨here, others⟩ := List.forall_mem_cons.mp members
    exact hereditary.member (here input) fun _ => ih others

theorem sequence (hereditary : σ.Hereditary live good holds)
    (members : ∀ rule ∈ rules, ∀ input, holds depth ⟨rule, input⟩) (input : Text) :
    holds depth ⟨.sequence rules, input⟩ := by
  induction rules generalizing input with
  | nil => exact hereditary.noStep
  | cons rule rules ih =>
    obtain ⟨here, others⟩ := List.forall_mem_cons.mp members
    exact hereditary.step (here input) fun m _ => ih others m.rest

theorem repetition (hereditary : σ.Hereditary live good holds) (own : body.Leaves good)
    (inner : ∀ input, holds depth ⟨body, input⟩) (input : Text) :
    holds depth ⟨.wrap .many body, input⟩ := by
  -- A repetition that goes on does so on a shorter text.
  induction size : input.byteLength using Nat.strongRecOn generalizing input with
  | ind _ ih =>
    subst size
    exact hereditary.many own (inner input) fun m _ shrinks => ih _ shrinks m.rest rfl

theorem wrapped (hereditary : σ.Hereditary live good holds) (w : Wrapper) (own : body.Leaves good)
    (inner : ∀ input, holds depth ⟨body, input⟩) (input : Text) :
    holds depth ⟨.wrap w body, input⟩ := by
  have many := hereditary.repetition own inner
  cases w with
  | many => exact many input
  | many1 => exact hereditary.spelled rfl (hereditary.sequence (by simp [inner, many]) input)
  | times n =>
    exact hereditary.spelled rfl (hereditary.sequence
      (fun rule copy => List.eq_of_mem_replicate copy ▸ inner) input)
  | _ => exact hereditary.once rfl (inner input)

theorem blocked (hereditary : σ.Hereditary live good holds) {start terminator escape : Rule}
    (own : (Rule.block start terminator escape).Leaves good)
    (starting : ∀ input, holds depth ⟨start, input⟩)
    (ending : ∀ input, holds depth ⟨terminator, input⟩)
    (escaping : ∀ input, holds depth ⟨escape, input⟩) (input : Text) :
    holds depth ⟨.block start terminator escape, input⟩ := by
  have apart := hereditary.wrapped .notAhead own.2.1 ending
  have scalar (input : Text) : holds depth ⟨.leaf .anyChar, input⟩ := hereditary.leaf hereditary.scalar
  have plain (input : Text) : holds depth
      ⟨.sequence [.wrap .notAhead terminator, .leaf .anyChar], input⟩ :=
    hereditary.sequence (by simp [apart, scalar]) input
  have piece (input : Text) : holds depth
      ⟨.choice [escape, .sequence [.wrap .notAhead terminator, .leaf .anyChar]], input⟩ :=
    hereditary.choice (by simp [escaping, plain]) input
  have leaves : (Rule.choice [escape, .sequence [.wrap .notAhead terminator, .leaf .anyChar]]).Leaves
      good := ⟨own.2.2, ⟨own.2.1, hereditary.scalar, trivial⟩, trivial⟩
  have content := hereditary.repetition leaves piece
  exact hereditary.spelled rfl (hereditary.sequence (by simp [starting, content, ending]) input)

mutual

theorem inherited (hereditary : σ.Hereditary live good holds)
    (calls : ∀ r input, holds depth ⟨.refer r, input⟩) : ∀ rule : Rule, rule.Leaves good →
      ∀ input, holds depth ⟨rule, input⟩
  | .leaf _, own, _ => hereditary.leaf own
  | .wrap w body, own, input => by
    have kept : body.Leaves good := own
    exact hereditary.wrapped w kept (inherited hereditary calls body kept) input
  | .choice members, own, input =>
    hereditary.choice (inheritedAll hereditary calls members own) input
  | .sequence members, own, input =>
    hereditary.sequence (inheritedAll hereditary calls members own) input
  | .choiceOf n member last, own, input => by
    refine hereditary.spelled rfl (hereditary.choice (fun rule inside => ?_) input)
    rcases List.mem_append.mp inside with copy | final
    · exact List.eq_of_mem_replicate copy ▸ inherited hereditary calls member own.1
    · exact List.mem_singleton.mp final ▸ inherited hereditary calls last own.2
  | .between left middle right, own, input => by
    have first := hereditary.wrapped .skip own.1 (inherited hereditary calls left own.1)
    have second := inherited hereditary calls middle own.2.1
    have third := hereditary.wrapped .skip own.2.2 (inherited hereditary calls right own.2.2)
    exact hereditary.spelled rfl (hereditary.sequence (by simp [first, second, third]) input)
  | .block start terminator escape, own, input =>
    hereditary.blocked own (inherited hereditary calls start own.1)
      (inherited hereditary calls terminator own.2.1) (inherited hereditary calls escape own.2.2) input
  | .refer r, _, input => calls r input

theorem inheritedAll (hereditary : σ.Hereditary live good holds)
    (calls : ∀ r input, holds depth ⟨.refer r, input⟩) : ∀ rules : List Rule,
      Rule.LeavesOfAll good rules → ∀ rule ∈ rules, ∀ input, holds depth ⟨rule, input⟩
  | [], _ => List.forall_mem_nil _
  | rule :: rules, own => List.forall_mem_cons.mpr
      ⟨inherited hereditary calls rule own.1, inheritedAll hereditary calls rules own.2⟩

end

theorem call (hereditary : σ.Hereditary live good holds) (leaves : σ.Leaves good) (depth : Nat)
    (r : Reference) (input : Text) : holds depth ⟨.refer r, input⟩ := by
  induction depth generalizing r input with
  | zero => exact hereditary.exhausted
  | succ depth ih =>
    cases found : σ.resolve live r with
    | error cause => exact hereditary.lost found
    | ok rule =>
      have own := leaves rule (memOfDefinition (resolveDefinition found))
      exact hereditary.refer found (inherited hereditary ih rule own input)

theorem everywhere (hereditary : σ.Hereditary live good holds) (leaves : σ.Leaves good)
    (own : rule.Leaves good) (depth : Nat) (input : Text) : holds depth ⟨rule, input⟩ :=
  inherited hereditary (hereditary.call leaves depth) rule own input

end Hereditary
end Store

namespace Grammar

def alive (g : Grammar) : List Nat := g.assembled.store.owned [g.assembled.rule]

def Visits (g : Grammar) (input : Text) (v : Visit) : Prop :=
  Relation.ReflTransGen (g.assembled.store.Calls g.alive) ⟨g.assembled.rule, input⟩ v

end Grammar
end Descent
