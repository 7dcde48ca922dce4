import Descent.Proofs.Assembly
import Descent.Proofs.Moves
/-!
What holds in every session that steps lead to, and what later steps cannot bring back. A cell that is
neither alive nor under a name stays so, whatever is made, defined or dropped later: a rule can only be
made of what is alive, of cells under names and of cells that are new.
-/
namespace Descent

def Step.Leaves (good : Leaf → Prop) : Step → Prop
  | .define _ _ g => g.Leaves good
  | .bind _ g => g.Leaves good
  | .recursive _ _ _ _ g => g.Leaves good
  | _ => True

namespace Session
open Relation (ReflTransGen TransGen)

variable {s t u : Session} {watched : Nat → Prop} {rule : Rule} {r : Reference} {cell next : Nat}

def live (s : Session) : List Nat := s.store.owned s.held

def parserOf (s : Session) (rule : Rule) : Parser Value := s.store.parser s.held rule

theorem emptySound : empty.Sound := by
  have nothing : ∀ cell, empty.store.definition? cell = none := fun _ => by
    simp [empty, Store.empty, Store.definition?]
  have absent : ∀ r, ¬ empty.Occurs r := by
    rintro r (⟨rule, held, -⟩ | ⟨cell, rule, defined, -⟩)
    · contradiction
    · simp [nothing] at defined
  refine ⟨?_, List.forall_mem_nil _, fun r occurs => absurd occurs (absent r),
    fun cell occurs => absurd occurs (absent _), fun cell occurs => absurd occurs (absent _)⟩
  rintro cell ⟨name, inside⟩
  contradiction

theorem occursMoves (moves : Moves watched s t) (occurs : t.Occurs r) :
    s.Occurs r ∨ Fresh watched s t r := by
  have sources : ∀ rule : Rule, r ∈ rule.references → (∀ r ∈ rule.references, Source watched s t r) →
      s.Occurs r ∨ Fresh watched s t r := fun rule inside sources => (sources r inside).imp .inl id
  rcases occurs with ⟨rule, held, inside⟩ | ⟨cell, rule, defined, inside⟩
  · rcases moves.holds rule held with old | new
    · exact .inl (.inl ⟨rule, old, inside⟩)
    · exact sources rule inside new
  · rcases moves.defines cell rule defined with old | ⟨-, -, new⟩
    · exact .inl (.inr ⟨cell, rule, old, inside⟩)
    · exact sources rule inside new

theorem opensMoves (moves : Moves watched s t) (opened : t.Open cell) :
    s.Open cell ∨ cell = s.store.cells.length ∧ cell < t.store.cells.length ∧ ¬ watched cell := by
  obtain ⟨name, inside⟩ := opened
  rcases moves.opens with old | ⟨own, same, longer, plain⟩
  · exact .inl ⟨name, old _ inside⟩
  · rw [same] at inside
    rcases Table.memInsert inside with entry | old
    · cases entry
      exact .inr ⟨rfl, longer, plain⟩
    · exact .inl ⟨name, old⟩

theorem knownMoves (sound : s.Sound) (moves : Moves watched s t) (occurs : t.Occurs r) :
    r.cell < t.store.cells.length := by
  rcases occursMoves moves occurs with old | fresh
  · exact Nat.lt_of_lt_of_le (sound.known r old) moves.longer
  · cases fresh with
    | issued opened => exact Nat.lt_of_lt_of_le (sound.opened _ opened).1 moves.longer
    | finished opened _ => exact Nat.lt_of_lt_of_le (sound.opened _ opened).1 moves.longer
    | made _ within _ _ => exact within

theorem finishedMoves (sound : s.Sound) (moves : Moves watched s t) (occurs : t.Occurs (.owner cell)) :
    (t.store.definition? cell).isSome := by
  rcases occursMoves moves occurs with old | fresh
  · obtain ⟨rule, defined⟩ := Option.isSome_iff_exists.mp (sound.finished cell old)
    exact Option.isSome_of_eq_some (moves.keeps cell rule defined)
  · cases fresh with
    | finished _ defined => exact defined
    | made _ _ _ owned => exact owned rfl

theorem watchedMoves (moves : Moves watched s t) (made : cell < s.store.cells.length)
    (sees : s.Watched cell) : t.Watched cell := by
  refine ⟨fun opened => ?_, fun tag occurs => ?_⟩
  · rcases opensMoves moves opened with old | ⟨rfl, -⟩
    · exact sees.1 old
    · exact Nat.lt_irrefl _ made
  · rcases occursMoves moves occurs with old | fresh
    · exact sees.2 tag old
    · cases fresh with
      | issued opened => exact sees.1 opened
      | made new _ _ _ => exact Nat.not_lt_of_le new made

theorem watchedMade (sound : s.Sound) (moves : Moves watched s t) (new : s.store.cells.length ≤ cell)
    (sees : watched cell) : t.Watched cell := by
  have unnamed : ¬ s.Open cell := fun opened => Nat.not_lt_of_le new (sound.opened cell opened).1
  refine ⟨fun opened => ?_, fun tag occurs => ?_⟩
  · rcases opensMoves moves opened with old | ⟨-, -, plain⟩
    · exact unnamed old
    · exact plain sees
  · rcases occursMoves moves occurs with old | fresh
    · exact Nat.not_lt_of_le new (sound.known _ old)
    · cases fresh with
      | issued opened => exact unnamed opened
      | made _ _ fits _ => exact fits sees

theorem watchesMoves (sound : s.Sound) (moves : Moves watched s t) (occurs : t.Occurs (.weak cell)) :
    t.Watched cell := by
  rcases occursMoves moves occurs with old | fresh
  · exact watchedMoves moves (sound.known _ old) (sound.watches cell old)
  · cases fresh with
    | made new _ fits _ => exact watchedMade sound moves new fits

theorem openedMoves (sound : s.Sound) (moves : Moves watched s t) (opened : t.Open cell) :
    cell < t.store.cells.length ∧ t.store.definition? cell = none := by
  -- What the step fills has no name after it.
  have undefined : s.store.definition? cell = none → t.store.definition? cell = none := by
    intro undefined
    refine Option.eq_none_iff_forall_ne_some.mpr fun rule defined => ?_
    rcases moves.defines cell rule defined with old | ⟨-, closed, -⟩
    · simp [undefined] at old
    · exact closed opened
  rcases opensMoves moves opened with old | ⟨rfl, within, -⟩
  · obtain ⟨made, empty⟩ := sound.opened cell old
    exact ⟨Nat.lt_of_lt_of_le made moves.longer, undefined empty⟩
  · refine ⟨within, undefined (Option.eq_none_iff_forall_ne_some.mpr fun rule defined => ?_)⟩
    exact Nat.lt_irrefl _ (s.store.definedMade defined)

theorem aloneMoves (sound : s.Sound) (moves : Moves watched s t) :
    ∀ a ∈ t.cells, ∀ b ∈ t.cells, a.2 = b.2 → a.1 = b.1 := by
  intro a first b second same
  have below : ∀ entry ∈ s.cells, entry.2 < s.store.cells.length := fun entry inside =>
    (sound.opened entry.2 ⟨entry.1, inside⟩).1
  rcases moves.opens with old | ⟨name, inserts, -, -⟩
  · exact sound.alone a (old a first) b (old b second) same
  · rw [inserts] at first second
    rcases Table.memInsert first with rfl | old <;> rcases Table.memInsert second with rfl | old'
    · rfl
    · exact absurd (below b old') (by simp [← same])
    · exact absurd (below a old) (by simp [same])
    · exact sound.alone a old b old' same

theorem soundMoves (sound : s.Sound) (moves : Moves watched s t) : t.Sound where
  opened _ := openedMoves sound moves
  alone := aloneMoves sound moves
  known _ := knownMoves sound moves
  finished _ := finishedMoves sound moves
  watches _ := watchesMoves sound moves

theorem stepSound (sound : s.Sound) (step : Step) : (s.step step).1.Sound := by
  obtain ⟨watched, moves⟩ := stepMoves sound step
  exact soundMoves sound moves

theorem afterAppend (s : Session) (before later : List Step) :
    s.after (before ++ later) = (s.after before).after later := by
  simp [after]

theorem afterSound (sound : s.Sound) (steps : List Step) : (s.after steps).Sound := by
  induction steps generalizing s with
  | nil => exact sound
  | cons step steps ih => exact ih (stepSound sound step)

theorem reachedSound (steps : List Step) : (empty.after steps).Sound := afterSound emptySound steps

structure Leaves (good : Leaf → Prop) (s : Session) : Prop where
  store : s.store.Leaves good
  held : ∀ rule ∈ s.held, rule.Leaves good

variable {good : Leaf → Prop}

theorem scopeLeaves (leaves : s.Leaves good) : Scope.Leaves good s.scope := by
  intro name rule inside
  rcases List.mem_append.mp inside with parser | cell
  · obtain ⟨p, among, same⟩ := List.mem_map.mp parser
    cases same
    exact leaves.held p.2 (List.mem_map_of_mem among)
  · obtain ⟨c, -, same⟩ := List.mem_map.mp cell
    simp at same

theorem namedLeaves (leaves : s.Leaves good) (own : rule.Leaves good) (name : Option String) :
    (s.named name rule).Leaves good :=
  ⟨by cases name <;> exact leaves.store,
    fun _ inside => (heldNamed inside).elim (fun same => same ▸ own) (leaves.held _)⟩

theorem namedReference (leaves : s.Leaves good) (name : Option String) (r : Reference) :
    (s.named name (.refer r)).Leaves good :=
  have own : (Rule.refer r).Leaves good := trivial
  namedLeaves leaves own name

theorem storeLeaves {σ : Store} (leaves : s.Leaves good) (kept : σ.Leaves good) :
    Leaves good {s with store := σ} :=
  ⟨kept, leaves.held⟩

theorem fewerLeaves (leaves : s.Leaves good) (store : t.store = s.store)
    (parsers : ∀ entry ∈ t.parsers, entry ∈ s.parsers) : t.Leaves good := by
  refine ⟨store ▸ leaves.store, fun rule inside => ?_⟩
  obtain ⟨entry, among, rfl⟩ := List.mem_map.mp inside
  exact leaves.held _ (List.mem_map_of_mem (parsers entry among))

theorem stepLeaves (fails : good .fail) (leaves : s.Leaves good) {step : Step}
    (own : step.Leaves good) : (s.step step).1.Leaves good := by
  have assembles : ∀ g : Grammar, g.Leaves good → Assembly.Keeps (Assembly.StoreLeaves good)
      (Rule.Leaves good) (g.assemble s.scope) := fun g own =>
    g.assembleLeaves fails s.scope own (scopeLeaves leaves)
  cases step with
  | cell name =>
    exact ⟨(Assembly.allocateLeaves ⟨s.store, []⟩ leaves.store).2, leaves.held⟩
  | handle cell name =>
    cases found : s.cells.find? cell with
    | none =>
      simp only [Session.step, found]
      exact leaves
    | some c =>
      have kept : (s.store.issue c).2.Leaves good := leaves.store
      simp only [Session.step, found]
      exact namedReference (storeLeaves leaves kept) (some name) _
  | define cell name g =>
    cases found : s.cells.find? cell with
    | none =>
      simp only [Session.step, found]
      exact leaves
    | some c =>
      obtain ⟨made, kept⟩ := assembles g own ⟨s.store, []⟩ leaves.store
      have defines : Assembly.Keeps (Assembly.StoreLeaves good) (Rule.Leaves good)
          (Assembly.define [] c (s.assembled g).1) := Assembly.defineLeaves made
      rw [stepDefine found]
      refine namedReference ?_ name _
      exact ⟨(defines _ kept).2, leaves.held⟩
  | bind name g =>
    obtain ⟨made, kept⟩ := assembles g own ⟨s.store, []⟩ leaves.store
    exact namedLeaves (storeLeaves leaves kept) made (some name)
  | recursive name self escapee probe g =>
    cases probe with
    | some input =>
      have kept := (Assembly.allocateLeaves ⟨s.store, []⟩ leaves.store).2
      exact namedReference (storeLeaves leaves kept) escapee _
    | none =>
      obtain ⟨made, kept⟩ := assembles (.recursive self g) own ⟨s.store, []⟩ leaves.store
      rw [stepRecursive]
      exact namedReference (namedReference (storeLeaves leaves kept) escapee _) name _
  | drop name =>
    simp only [Session.step]
    split
    · exact fewerLeaves leaves rfl fun _ => List.mem_of_mem_filter
    · split <;> exact ⟨leaves.store, leaves.held⟩
  | parse name input =>
    simp only [Session.step]
    split <;> exact leaves
  | parseAll name input =>
    simp only [Session.step]
    split <;> exact leaves
  | describe name =>
    simp only [Session.step]
    split <;> exact leaves

theorem emptyLeaves : empty.Leaves good :=
  ⟨by simp [empty, Store.empty, Store.Leaves], List.forall_mem_nil _⟩

theorem afterLeaves (fails : good .fail) (leaves : s.Leaves good) {steps : List Step}
    (own : ∀ step ∈ steps, step.Leaves good) : (s.after steps).Leaves good := by
  induction steps generalizing s with
  | nil => exact leaves
  | cons step steps ih =>
    obtain ⟨first, rest⟩ := List.forall_mem_cons.mp own
    exact ih (stepLeaves fails leaves first) rest

def Spared (s : Session) (cell : Nat) : Prop :=
  s.store.cells.length ≤ cell ∨ s.Open cell ∨ cell ∈ s.live

theorem occursOwned (sound : s.Sound) (occurs : s.Occurs r) (owned : r.owned? = some cell) :
    cell < s.store.cells.length :=
  Reference.ownedCell owned ▸ sound.known r occurs

theorem heldSpared (sound : s.Sound) (held : rule ∈ s.held) (owns : cell ∈ rule.owns) :
    s.Spared cell := by
  obtain ⟨r, inside, owned⟩ := List.mem_filterMap.mp owns
  exact .inr (.inr (s.store.heldOwned held owns (occursOwned sound (.inl ⟨rule, held, inside⟩) owned)))

theorem sourceSpared (sound : s.Sound) (source : Source watched s t r)
    (owned : r.owned? = some cell) : s.Spared cell := by
  rcases source with ⟨rule, held, inside⟩ | fresh
  · exact heldSpared sound held (List.mem_filterMap.mpr ⟨r, inside, owned⟩)
  · rw [← Reference.ownedCell owned]
    cases fresh with
    | issued opened => exact .inr (.inl opened)
    | finished opened _ => exact .inr (.inl opened)
    | made new _ _ _ => exact .inl new

theorem sourcesSpared (sound : s.Sound) (sources : ∀ r ∈ rule.references, Source watched s t r)
    (owns : cell ∈ rule.owns) : s.Spared cell := by
  obtain ⟨r, inside, owned⟩ := List.mem_filterMap.mp owns
  exact sourceSpared sound (sources r inside) owned

theorem ownsMoves (sound : s.Sound) (moves : Moves watched s t) (owns : t.store.Owns cell next) :
    s.store.Owns cell next ∨ s.Spared next := by
  obtain ⟨rule, defined, inside⟩ := t.store.ownsIff.mp owns
  rcases moves.defines cell rule defined with old | ⟨-, -, sources⟩
  · exact .inl (s.store.ownsIff.mpr ⟨rule, old, inside⟩)
  · exact .inr (sourcesSpared sound sources inside)

theorem ownsSpared (sound : s.Sound) (moves : Moves watched s t) (spared : s.Spared cell)
    (owns : t.store.Owns cell next) : s.Spared next := by
  rcases ownsMoves sound moves owns with old | new
  · obtain ⟨rule, defined, inside⟩ := s.store.ownsIff.mp old
    obtain ⟨r, among, owned⟩ := List.mem_filterMap.mp inside
    have known := occursOwned sound (.inr ⟨cell, rule, defined, among⟩) owned
    rcases spared with outside | opened | alive
    · exact absurd (s.store.definedMade defined) (Nat.not_lt_of_le outside)
    · simp [(sound.opened cell opened).2] at defined
    · exact .inr (.inr (s.store.ownedClosed alive old known))
  · exact new

theorem pathMoves (sound : s.Sound) (moves : Moves watched s t)
    (path : TransGen t.store.Owns cell next) : TransGen s.store.Owns cell next ∨ s.Spared next := by
  induction path with
  | single owns => exact (ownsMoves sound moves owns).imp .single id
  | tail _ owns ih =>
    rcases ih with old | spared
    · exact (ownsMoves sound moves owns).imp old.tail id
    · exact .inr (ownsSpared sound moves spared owns)

theorem rootSpared (sound : s.Sound) (moves : Moves watched s t)
    (root : t.store.Root t.held cell) : s.Spared cell := by
  rcases root with ⟨rule, held, owns⟩ | cycle
  · rcases moves.holds rule held with old | sources
    · exact heldSpared sound old owns
    · exact sourcesSpared sound sources owns
  · rcases pathMoves sound moves cycle with old | spared
    · obtain ⟨_, owns, -⟩ := TransGen.head'_iff.mp old
      exact .inr (.inr (s.store.memOwned.mpr ⟨s.store.ownsMade owns, cell, .inr old, .refl⟩))
    · exact spared

theorem liveSpared (sound : s.Sound) (moves : Moves watched s t) (alive : cell ∈ t.live) :
    s.Spared cell := by
  obtain ⟨-, root, holds, path⟩ := t.store.memOwned.mp alive
  -- Along the path: what is spared owns, after the step too, only what is spared.
  clear alive
  induction path with
  | refl => exact rootSpared sound moves holds
  | tail _ owns ih => exact ownsSpared sound moves ih owns

structure Later (s t : Session) : Prop where
  longer : s.store.cells.length ≤ t.store.cells.length
  keeps : ∀ cell rule, s.store.definition? cell = some rule → t.store.definition? cell = some rule
  opens : ∀ cell, t.Open cell → s.Open cell ∨ s.store.cells.length ≤ cell
  lives : ∀ cell, cell ∈ t.live → s.Spared cell

theorem laterMoves (sound : s.Sound) (moves : Moves watched s t) : Later s t where
  longer := moves.longer
  keeps := moves.keeps
  opens _ opened := (opensMoves moves opened).imp id fun new => Nat.le_of_eq new.1.symm
  lives _ := liveSpared sound moves

theorem laterRefl (s : Session) : Later s s where
  longer := Nat.le_refl _
  keeps _ _ := id
  opens _ := .inl
  lives _ alive := .inr (.inr alive)

theorem laterTrans (first : Later s t) (second : Later t u) : Later s u where
  longer := Nat.le_trans first.longer second.longer
  keeps cell rule defined := second.keeps cell rule (first.keeps cell rule defined)
  opens cell opened := by
    rcases second.opens cell opened with old | new
    · exact first.opens cell old
    · exact .inr (Nat.le_trans first.longer new)
  lives cell alive := by
    rcases second.lives cell alive with new | opened | old
    · exact .inl (Nat.le_trans first.longer new)
    · rcases first.opens cell opened with old | new
      · exact .inr (.inl old)
      · exact .inl new
    · exact first.lives cell old

theorem stepLater (sound : s.Sound) (step : Step) : Later s (s.step step).1 := by
  obtain ⟨watched, moves⟩ := stepMoves sound step
  exact laterMoves sound moves

theorem afterLater (sound : s.Sound) (steps : List Step) : Later s (s.after steps) := by
  induction steps generalizing s with
  | nil => exact laterRefl s
  | cons step steps ih => exact laterTrans (stepLater sound step) (ih (stepSound sound step))

theorem deadStays (later : Later s t) (made : cell < s.store.cells.length) (sees : s.Watched cell)
    (dead : cell ∉ s.live) : cell ∉ t.live := by
  intro alive
  rcases later.lives cell alive with new | opened | old
  · exact Nat.not_lt_of_le new made
  · exact sees.1 opened
  · exact dead old

end Session
end Descent
