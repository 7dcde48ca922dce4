import Descent.Proofs.Bare
import Descent.Proofs.Flattening
import Descent.Proofs.Lifetimes
/-!
Every place at which a grammar is assembled in a session: with the scope there, and with what was made
before. Assembling a grammar assembles its parts in turn; what it writes is what they write, and where
cells are defined the definitions. Scopes and definitions refer to no cell that is not made yet.
-/
namespace Descent

def Grammar.binds : Grammar → Bool
  | .recursive _ _ => true
  | .together _ _ => true
  | _ => false

structure Stage where
  scope : Scope
  blueprint : Blueprint
  grammar : Grammar

namespace Stage
open Assembly (allocate allocateAll defineAll)

def made (p : Stage) : Rule × Blueprint :=
  p.grammar.assemble p.scope p.blueprint

def written (p : Stage) : Journal :=
  p.made.2.journal.drop p.blueprint.journal.length

def opened (definitions : List (String × Grammar)) (b : Blueprint) :
    List (String × Nat) × Blueprint :=
  allocateAll (definitions.map Prod.fst) b

def laid (scope : Scope) (definitions : List (String × Grammar)) (b : Blueprint) :
    List Rule × Blueprint :=
  let (cells, b) := opened definitions b
  Grammar.assembleDefinitions (Scope.opened cells scope) definitions b

def filled (scope : Scope) (definitions : List (String × Grammar)) (b : Blueprint) :
    Scope × Blueprint :=
  let (rules, laid) := laid scope definitions b
  defineAll rules (opened definitions b).1 rules laid

def inTurn (scope : Scope) : Blueprint → List Grammar → List Stage
  | _, [] => []
  | b, g :: gs => ⟨scope, b, g⟩ :: inTurn scope (g.assemble scope b).2 gs

def parts (p : Stage) : List Stage :=
  match p.grammar with
  | .recursive name body =>
    let (cell, b) := allocate p.blueprint
    [⟨(name, .rule (.refer (.weak cell))) :: p.scope, b, body⟩]
  | .together definitions body =>
    let (cells, b) := opened definitions p.blueprint
    let (finished, filled) := filled p.scope definitions p.blueprint
    inTurn (Scope.opened cells p.scope) b (definitions.map Prod.snd) ++
      [⟨finished.reverse ++ p.scope, filled, body⟩]
  | g => inTurn p.scope p.blueprint g.parts

theorem madeJournal (p : Stage) : p.made.2.journal = p.blueprint.journal ++ p.written := by
  obtain ⟨counts, grown⟩ :=
    (@Grammar.assembleAlongside (fun _ => false) p.grammar p.scope).counts p.blueprint
  have whole : p.made.2.journal = p.blueprint.journal ++ counts.map .defined := grown
  rw [written, whole, List.drop_left]

theorem inTurnJournal (scope : Scope) (gs : List Grammar) (b : Blueprint) :
    (Grammar.assembleAll scope gs b).2.journal =
      b.journal ++ (inTurn scope b gs).flatMap written := by
  induction gs generalizing b with
  | nil => exact (List.append_nil b.journal).symm
  | cons g gs ih =>
    have first := madeJournal ⟨scope, b, g⟩
    have rest := ih (g.assemble scope b).2
    change (Grammar.assembleAll scope gs (g.assemble scope b).2).2.journal = _
    rw [rest, inTurn, List.flatMap_cons, ← List.append_assoc, ← first]
    rfl

theorem definitionsAll (scope : Scope) (definitions : List (String × Grammar)) :
    Grammar.assembleDefinitions scope definitions =
      Grammar.assembleAll scope (definitions.map Prod.snd) := by
  induction definitions with
  | nil => rfl
  | cons d definitions ih =>
    rw [List.map_cons, Grammar.assembleDefinitions, Grammar.assembleAll, ih]

theorem writtenOf {p : Stage} {written' : Journal}
    (grown : p.made.2.journal = p.blueprint.journal ++ written') : p.written = written' := by
  rw [written, grown, List.drop_left]

theorem lookupJournal (scope : Scope) (name : String) (b : Blueprint) :
    (Assembly.lookup scope name b).2.journal = b.journal := by
  cases found : Table.find? name scope with
  | none =>
    simp only [Assembly.lookup, found]
    rfl
  | some meaning =>
    cases meaning <;> simp only [Assembly.lookup, found] <;> rfl

theorem partsWritten (p : Stage) (plain : p.grammar.binds = false) :
    p.written = p.parts.flatMap written := by
  obtain ⟨scope, b, g⟩ := p
  apply writtenOf
  cases g with
  | leaf _ => exact inTurnJournal scope [] b
  | wrap _ body => exact inTurnJournal scope [body] b
  | choice members => exact inTurnJournal scope members b
  | sequence members => exact inTurnJournal scope members b
  | choiceOf _ member last => exact inTurnJournal scope [member, last] b
  | between left middle right => exact inTurnJournal scope [left, middle, right] b
  | block start terminator escape => exact inTurnJournal scope [start, terminator, escape] b
  | ref name => exact (lookupJournal scope name b).trans (List.append_nil b.journal).symm
  | recursive _ _ => contradiction
  | together _ _ => contradiction

end Stage

namespace Store

structure Knows (σ : Store) (scope : Scope) : Prop where
  names : ∀ r, scope.Offers r → r.cell < σ.cells.length
  cells : ∀ cell rule, σ.definition? cell = some rule → ∀ r ∈ rule.references,
    r.cell < σ.cells.length

variable {σ σ' : Store} {scope : Scope} {rule : Rule}

theorem originKnown {watched : Nat → Prop} {next : Nat} {r : Reference} (knows : σ.Knows scope)
    (longer : σ.cells.length ≤ next) (origin : scope.Origin watched σ.cells.length next r) :
    r.cell < next := by
  rcases origin with offers | ⟨-, within, -⟩
  · exact Nat.lt_of_lt_of_le (knows.names r offers) longer
  · exact within

theorem knowsGrown {watched : Nat → Prop} (knows : σ.Knows scope) (grows : Grows σ σ')
    (sourced : σ'.Sourced scope watched σ.cells.length rule σ'.cells.length) :
    σ'.Knows scope ∧ ∀ r ∈ rule.references, r.cell < σ'.cells.length := by
  have known : ∀ r, scope.Origin watched σ.cells.length σ'.cells.length r →
      r.cell < σ'.cells.length := fun _ => originKnown knows grows.longer
  refine ⟨⟨fun r offers => Nat.lt_of_lt_of_le (knows.names r offers) grows.longer, ?_⟩,
    fun r inside => known r (sourced.rule r inside)⟩
  intro cell inner defined r inside
  by_cases old : cell < σ.cells.length
  · rw [grows.keeps cell old] at defined
    exact Nat.lt_of_lt_of_le (knows.cells cell inner defined r inside) grows.longer
  · exact known r (sourced.cells cell (Nat.le_of_not_lt old) (σ'.definedMade defined) inner defined r
      inside)

end Store

namespace Stage
open Assembly (defineAll)
open Store (Knows knowsGrown)

variable {scope : Scope} {b : Blueprint}

def Known (p : Stage) : Prop := p.blueprint.store.Knows p.scope

theorem knownMade {p : Stage} (known : p.Known) : p.made.2.store.Knows p.scope := by
  obtain ⟨grows, lays⟩ := Grammar.assembleLays p.grammar p.scope p.blueprint
  obtain ⟨watched, sourced⟩ := Grammar.layoutSourced p.grammar (lays _ (Store.sharesOwn _ _))
  exact (knowsGrown known grows sourced).1

theorem knownInTurn (gs : List Grammar) (b : Blueprint) (knows : b.store.Knows scope) :
    ∀ p ∈ inTurn scope b gs, p.Known := by
  induction gs generalizing b with
  | nil => exact List.forall_mem_nil _
  | cons g gs ih =>
    exact List.forall_mem_cons.mpr ⟨knows, ih _ (knownMade (p := ⟨scope, b, g⟩) knows)⟩

section Definitions

variable (scope : Scope) (definitions : List (String × Grammar)) (b : Blueprint)

theorem openedCells : (opened definitions b).1 =
    numbered (definitions.map Prod.fst) b.store.cells.length := by
  rw [opened, Assembly.allocateAllEq]

theorem openedLength : (opened definitions b).2.store.cells.length =
    b.store.cells.length + (definitions.map Prod.fst).length := by
  simp [opened, Assembly.allocateAllEq]

theorem openedDefinition (cell : Nat) :
    (opened definitions b).2.store.definition? cell = b.store.definition? cell := by
  simp only [opened, Assembly.allocateAllEq, Store.definition?, List.getElem?_append]
  split
  · rfl
  · rename_i outside
    rw [List.getElem?_eq_none (Nat.le_of_not_lt outside), List.getElem?_replicate]
    split <;> rfl

theorem laidLays :
    Store.Grows (opened definitions b).2.store (laid scope definitions b).2.store ∧
      (laid scope definitions b).2.store.LayoutDefinitions
        (Scope.opened (opened definitions b).1 scope) definitions
        (opened definitions b).2.store.cells.length (laid scope definitions b).1
        (laid scope definitions b).2.store.cells.length := by
  have lays := Grammar.assembleDefinitionsLays definitions
    (Scope.opened (opened definitions b).1 scope) (opened definitions b).2
  exact ⟨lays.1, lays.2 _ (Store.sharesOwn _ _)⟩

theorem laidRoom : b.store.cells.length + (definitions.map Prod.fst).length ≤
    (laid scope definitions b).2.store.cells.length := by
  rw [← openedLength]
  exact (laidLays scope definitions b).1.longer

theorem laidPaired : (laid scope definitions b).1.length = (definitions.map Prod.fst).length :=
  Grammar.definitionsPaired (laidLays scope definitions b).2

theorem filledFills :
    let cells := numbered (definitions.map Prod.fst) b.store.cells.length
    let before := (laid scope definitions b).2.store
    let after := (filled scope definitions b).2.store
    (filled scope definitions b).1 = cells.map (fun d => (d.1, .rule (.refer (.owner d.2)))) ∧
      after.cells.length = before.cells.length ∧
      (∀ cell, cell < b.store.cells.length ∨
          b.store.cells.length + (definitions.map Prod.fst).length ≤ cell →
        after.definition? cell = before.definition? cell) ∧
      after.Filled cells (laid scope definitions b).1 := by
  intro cells before after
  have same : filled scope definitions b = defineAll (laid scope definitions b).1 cells
      (laid scope definitions b).1 (laid scope definitions b).2 :=
    congrArg (fun opened => defineAll (laid scope definitions b).1 opened
      (laid scope definitions b).1 (laid scope definitions b).2) (openedCells definitions b)
  simp only [after, same]
  exact Assembly.defineAllFills _ (laidPaired scope definitions b) (laidRoom scope definitions b)

end Definitions

theorem knowsNamed {σ : Store} {names : List String} {first : Nat} (means : Nat → Meaning)
    (known : ∀ r, scope.Offers r → r.cell < σ.cells.length)
    (room : first + names.length ≤ σ.cells.length)
    (refers : ∀ cell r, (means cell).Offers r → r.cell = cell) :
    ∀ r, Scope.Offers (((numbered names first).map fun d => (d.1, means d.2)).reverse ++ scope) r →
      r.cell < σ.cells.length := by
  rintro r ⟨entry, inside, offered⟩
  rcases List.mem_append.mp inside with named | old
  · obtain ⟨d, among, rfl⟩ := List.mem_map.mp (List.mem_reverse.mp named)
    rw [refers d.2 r offered]
    exact Nat.lt_of_lt_of_le (numberedBounds d among).2 room
  · exact known r ⟨entry, old, offered⟩

theorem openedKnows {definitions : List (String × Grammar)} (knows : b.store.Knows scope) :
    (opened definitions b).2.store.Knows (Scope.opened (opened definitions b).1 scope) := by
  have older : ∀ r : Reference, r.cell < b.store.cells.length →
      r.cell < (opened definitions b).2.store.cells.length := by
    intro r within
    rw [openedLength]
    exact Nat.lt_add_right _ within
  refine ⟨?_, fun cell rule defined r inside => older r ?_⟩
  · rw [openedCells]
    refine knowsNamed .cell (fun r offers => older r (knows.names r offers))
      (Nat.le_of_eq (openedLength definitions b).symm) fun cell r offered => ?_
    obtain ⟨tag, rfl⟩ := Meaning.offersHandle offered
    rfl
  · rw [openedDefinition] at defined
    exact knows.cells cell rule defined r inside

theorem laidKnows (definitions : List (String × Grammar)) (knows : b.store.Knows scope) :
    (laid scope definitions b).2.store.Knows (Scope.opened (opened definitions b).1 scope) ∧
      ∀ rule ∈ (laid scope definitions b).1, ∀ r ∈ rule.references,
        r.cell < (laid scope definitions b).2.store.cells.length := by
  obtain ⟨grows, lays⟩ := laidLays scope definitions b
  obtain ⟨watched, sourced⟩ := Grammar.layoutDefinitionsSourced definitions lays
  obtain ⟨own, rules⟩ := knowsGrown (openedKnows knows) grows sourced
  exact ⟨own, fun rule among r inside => rules r (Grammar.memReferences among inside)⟩

theorem filledKnows {definitions : List (String × Grammar)} (knows : b.store.Knows scope) :
    (filled scope definitions b).2.store.Knows ((filled scope definitions b).1.reverse ++ scope) := by
  obtain ⟨before, rules⟩ := laidKnows definitions knows
  obtain ⟨finished, length, keeps, fills⟩ := filledFills scope definitions b
  have room := laidRoom scope definitions b
  refine ⟨?_, fun cell rule defined r inside => ?_⟩
  · rw [finished]
    refine knowsNamed (fun c => .rule (.refer (.owner c))) (fun r offers => ?_)
      (by rw [length]; exact room) fun cell r offered => ?_
    · have old := knows.names r offers
      rw [length]
      omega
    · cases Meaning.offersRefer offered
      rfl
  · rw [length]
    by_cases named : b.store.cells.length ≤ cell ∧
        cell < b.store.cells.length + (definitions.map Prod.fst).length
    · obtain ⟨definition, among, own⟩ := Store.filledSome fills named.1 named.2
      cases own.symm.trans defined
      exact rules rule among r inside
    · rw [keeps cell (by omega)] at defined
      exact before.cells cell rule defined r inside

theorem knownParts {p : Stage} (known : p.Known) : ∀ q ∈ p.parts, q.Known := by
  obtain ⟨scope, b, g⟩ := p
  cases g with
  | recursive name body =>
    refine List.forall_mem_singleton.mpr ⟨fun r offers => ?_, fun cell rule defined r inside => ?_⟩
    · change r.cell < (b.store.allocate).2.cells.length
      rw [Store.allocateLength]
      rcases Scope.offersCons offers with own | old
      · cases Meaning.offersRefer own
        exact Nat.lt_succ_self _
      · exact Nat.lt_succ_of_lt (known.names r old)
    · change r.cell < (b.store.allocate).2.cells.length
      rw [Store.allocateLength]
      have same : b.store.definition? cell = some rule :=
        (b.store.definitionAllocate cell).symm.trans defined
      exact Nat.lt_succ_of_lt (known.cells cell rule same r inside)
  | together definitions body =>
    refine List.forall_mem_append.mpr ⟨?_, List.forall_mem_singleton.mpr (filledKnows known)⟩
    exact knownInTurn _ _ (openedKnows known)
  | leaf _ => exact knownInTurn [] b known
  | wrap _ body => exact knownInTurn [body] b known
  | choice members => exact knownInTurn members b known
  | sequence members => exact knownInTurn members b known
  | choiceOf _ member last => exact knownInTurn [member, last] b known
  | between left middle right => exact knownInTurn [left, middle, right] b known
  | block start terminator escape => exact knownInTurn [start, terminator, escape] b known
  | ref _ => exact knownInTurn [] b known

end Stage

namespace Session
open Relation (ReflTransGen)

def stage (s : Session) (g : Grammar) : Stage :=
  ⟨s.scope, ⟨s.store, []⟩, g⟩

/-- After the steps, assembling a grammar comes to this one as a part of it, or of a part. -/
def ComesTo (steps : List Step) (p : Stage) : Prop :=
  ∃ g, ReflTransGen (fun whole part => part ∈ whole.parts) ((empty.after steps).stage g) p

theorem stageKnown {s : Session} (sound : s.Sound) (g : Grammar) : (s.stage g).Known where
  names r offers := by
    rcases scopeOffers offers with held | ⟨cell, tag, opened, rfl⟩
    · exact sound.known r (.inl held)
    · exact (sound.opened cell opened).1
  cells cell rule defined r inside := sound.known r (.inr ⟨cell, rule, defined, inside⟩)

theorem comesKnown {steps : List Step} {p : Stage} (comes : ComesTo steps p) : p.Known := by
  obtain ⟨g, path⟩ := comes
  induction path with
  | refl => exact stageKnown (reachedSound steps) g
  | tail _ part ih => exact Stage.knownParts ih _ part

end Session
end Descent
