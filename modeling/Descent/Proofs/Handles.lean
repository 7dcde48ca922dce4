import Descent.Proofs.Naming
/-!
When a handle works. One that owns its cell works from the step on that fills the cell, and does what the
cell was filled with. One that only watches its cell works as long as a name leads to the parser that was
made with it, and does what that parser does.
-/
namespace Descent.Session
open Relation (ReflTransGen TransGen)

/-- To invoke the reference is itself this panic, not only something that is invoked by it. -/
def Panics (s : Session) (r : Reference) (cause : Panic) : Prop :=
  s.store.resolve s.live r = .error cause

/-- A name leads to the reference: over the parts of its rule, and from a reference that owns its cell to
the parts of what the cell is filled with. -/
inductive Reaches (s : Session) : Reference → Prop where
  | held {name rule r} (named : s.parsers.find? name = some rule) (inside : r ∈ rule.references) :
      Reaches s r
  | through {r rule part} (reached : Reaches s r) (owns : r.owned?.isSome)
      (defined : s.store.definition? r.cell = some rule) (inside : part ∈ rule.references) :
      Reaches s part

def answer (steps : List Step) (name : String) (input : Text) : Run Answer :=
  ((empty.after steps).step (.parse name input)).2

def Recursed (steps : List Step) (cell : Nat) : Prop :=
  ∃ before name self escapee probe g later,
    steps = before ++ .recursive name self escapee probe g :: later ∧
    cell = (empty.after before).store.cells.length

def bodyOf (s : Session) (self : String) (g : Grammar) : Rule :=
  (g.assemble ((self, .rule (.refer (.weak s.store.cells.length))) :: s.scope)
    ⟨s.store.allocate.2, []⟩).1

structure Follows (steps : List Step) (r : Reference) : Prop where
  waits : (empty.after steps).Panics r .undefinedHandle ↔ ∀ rule, ¬ Filled steps r.cell rule
  lasts : ¬ (empty.after steps).Panics r .droppedHandle
  answers : ∀ rule, Filled steps r.cell rule → ∀ input,
    ¬ ((empty.after steps).parserOf (.refer r) input).Exhausted →
      (empty.after steps).parserOf (.refer r) input = (empty.after steps).parserOf rule input
  endless : (∀ step ∈ steps, step.Leaves Leaf.LeavesEnd) → ∀ rule, Filled steps r.cell rule →
    ∀ input, ((empty.after steps).parserOf (.refer r) input).Exhausted →
      ((empty.after steps).parserOf rule input).Exhausted

structure Tracks (steps : List Step) (cell : Nat) : Prop where
  filled : ¬ (empty.after steps).Panics (.weak cell) .undefinedHandle
  drops : (empty.after steps).Panics (.weak cell) .droppedHandle ↔
    ¬ (empty.after steps).Reaches (.owner cell)
  answers : (empty.after steps).Reaches (.owner cell) → ∀ input,
    (empty.after steps).parserOf (.refer (.weak cell)) input =
      (empty.after steps).parserOf (.refer (.owner cell)) input

/-- What names and cells are after the steps, what the handles of cells do, and what the names of handles
answer. -/
structure Obeys (steps : List Step) : Prop where
  names : ∀ name rule, (empty.after steps).parsers.find? name = some rule ↔ Named steps name rule
  cells : ∀ cell c, (empty.after steps).cells.find? cell = some c ↔ Deferred steps cell c
  fills : ∀ c rule, Made steps c → (Filled steps c rule ↔ Defined steps c rule)
  handled : ∀ name c, Handled steps name c →
    Made steps c ∧ ∃ tag, Named steps name (.refer (.handle c tag))
  escaped : ∀ name c, Escaped steps name c → Named steps name (.refer (.weak c))
  returns : ∀ before name self escapee g later,
    steps = before ++ .recursive name self escapee none g :: later →
      Filled steps (empty.after before).store.cells.length ((empty.after before).bodyOf self g)
  asks : ∀ name rule, Named steps name rule → ∀ input,
    answer steps name input = .found <$> (empty.after steps).parserOf rule input
  uses : ∀ cell c, Deferred steps cell c → (∀ rule, ¬ Named steps cell rule) →
    (∃ tag, ((empty.after steps).assembled (.ref cell)).1 = .refer (.handle c tag)) ∧
      ∀ input, answer steps cell input = Run.panic .undefinedHandle
  panics : ∀ r cause, (empty.after steps).Panics r cause → ∀ input,
    (empty.after steps).parserOf (.refer r) input = Run.panic cause
  follows : ∀ r : Reference, r.owned?.isSome → Follows steps r
  tracks : ∀ cell, Recursed steps cell ∨ (empty.after steps).Occurs (.weak cell) → Tracks steps cell
  waits : ∀ name c tag, Named steps name (.refer (.handle c tag)) → Made steps c →
    (∀ rule, ¬ Defined steps c rule) → ∀ input, answer steps name input = Run.panic .undefinedHandle
  answers : ∀ name c tag, Named steps name (.refer (.handle c tag)) → ∀ rule, Defined steps c rule →
    ∀ input, ¬ (answer steps name input).Exhausted →
      answer steps name input = .found <$> (empty.after steps).parserOf rule input
  endless : (∀ step ∈ steps, step.Leaves Leaf.LeavesEnd) → ∀ name c tag,
    Named steps name (.refer (.handle c tag)) → ∀ rule, Defined steps c rule → ∀ input,
      (answer steps name input).Exhausted → ((empty.after steps).parserOf rule input).Exhausted
  outlives : ∀ name c, Named steps name (.refer (.weak c)) → ¬ (empty.after steps).Reaches (.owner c) →
    ∀ input, answer steps name input = Run.panic .droppedHandle
  escapes : ∀ name c, Named steps name (.refer (.weak c)) → (empty.after steps).Reaches (.owner c) →
    ∀ input, answer steps name input = .found <$> (empty.after steps).parserOf (.refer (.owner c)) input

variable {s : Session} {steps : List Step} {rule : Rule} {r : Reference} {cell next : Nat}

theorem panicsRun {cause : Panic} (panics : s.Panics r cause) (input : Text) :
    s.parserOf (.refer r) input = Run.panic cause := by
  have resolves : s.store.resolve (s.store.owned s.held) r = .error cause := panics
  rw [parserOf, Store.parser, Store.depthBound, Rule.parser, Store.invoke, resolves]

theorem invokeLeads (leads : s.store.resolve s.live r = .ok rule) (depth : Nat) (input : Text) :
    s.store.invoke s.live (depth + 1) r input = rule.parser (s.store.invoke s.live depth) input := by
  rw [Store.invoke, leads]

theorem leadsAnswers (leads : s.store.resolve s.live r = .ok rule) {input : Text}
    (ends : ¬ (s.parserOf (.refer r) input).Exhausted) :
    s.parserOf (.refer r) input = s.parserOf rule input := by
  have deeper := invokeLeads leads (s.store.cells.length * (input.length + 1)) input
  have same : s.parserOf (.refer r) input = _ := deeper
  rw [same] at ends ⊢
  exact (Store.parserDeeper rule (Nat.le_succ _) ends).symm

theorem leadsEndless (leaves : s.Leaves Leaf.LeavesEnd) (leads : s.store.resolve s.live r = .ok rule)
    {input : Text} (endless : (s.parserOf (.refer r) input).Exhausted) :
    (s.parserOf rule input).Exhausted := by
  -- If the rule came to an end, so would the reference one deeper, and then it would at the bound.
  refine Classical.byContradiction fun ends => ?_
  have deeper := invokeLeads leads (s.store.depthBound input) input
  have settled : ¬ ((Rule.refer r).parser
      (s.store.invoke s.live (s.store.depthBound input + 1)) input).Exhausted := by
    rw [Rule.parser, deeper]
    exact ends
  have own : (Rule.refer r).Leaves Leaf.LeavesEnd := trivial
  exact settled (Store.depthSuffices leaves.store own settled ▸ endless)

theorem ownerFollows (steps : List Step) (owns : r.owned?.isSome) : Follows steps r := by
  have resolves : (empty.after steps).store.resolve (empty.after steps).live r = _ :=
    Store.resolveOwning _ owns
  have leads : ∀ rule, Filled steps r.cell rule →
      (empty.after steps).store.resolve (empty.after steps).live r = .ok rule := by
    intro rule filled
    rw [resolves, filledIff.mp filled]
    rfl
  refine ⟨⟨fun waits rule filled => ?_, fun empty => ?_⟩, fun drops => ?_,
    fun rule filled input ends => ?_, fun leaves rule filled input endless => ?_⟩
  · cases waits.symm.trans (leads rule filled)
  · have undefined := Option.eq_none_iff_forall_ne_some.mpr fun rule defined =>
      empty rule (filledIff.mpr defined)
    rw [Panics, resolves, undefined]
    rfl
  · rw [Panics, resolves] at drops
    cases defined : (Session.empty.after steps).store.definition? r.cell <;> simp [defined] at drops
  · exact leadsAnswers (leads rule filled) ends
  · exact leadsEndless (afterLeaves trivial emptyLeaves leaves) (leads rule filled) endless

theorem afterWatched (sound : s.Sound) (made : cell < s.store.cells.length) (sees : s.Watched cell)
    (steps : List Step) : (s.after steps).Watched cell := by
  induction steps generalizing s with
  | nil => exact sees
  | cons step steps ih =>
    obtain ⟨watched, moves⟩ := stepMoves sound step
    exact ih (soundMoves sound moves) (Nat.lt_of_lt_of_le made moves.longer)
      (watchedMoves moves made sees)

theorem recursedWatched (recursed : Recursed steps cell) : (empty.after steps).Watched cell := by
  obtain ⟨before, name, self, escapee, probe, g, later, rfl, rfl⟩ := recursed
  have sound := reachedSound before
  obtain ⟨watched, sees, made, moves⟩ := recursiveMoves sound name self escapee probe g
  rw [afterAppend]
  exact afterWatched (soundMoves sound moves) made
    (watchedMade sound moves (Nat.le_refl _) sees) later

theorem watchedOwner (sees : s.Watched cell) (occurs : s.Occurs r) (owned : r.owned? = some cell) :
    r = .owner cell := by
  cases r with
  | owner own => exact congrArg Reference.owner (Option.some.inj owned)
  | handle own tag =>
    cases owned
    exact absurd occurs (sees.2 tag)
  | weak own => contradiction

theorem reachesOccurs (reaches : s.Reaches r) : s.Occurs r := by
  cases reaches with
  | held named inside => exact .inl ⟨_, foundHeld named, inside⟩
  | through _ _ defined inside => exact .inr ⟨_, _, defined, inside⟩

theorem reachesLive (sound : s.Sound) (reaches : s.Reaches r) (owned : r.owned? = some cell) :
    cell ∈ s.live := by
  induction reaches generalizing cell with
  | @held name rule r named inside =>
    exact s.store.heldOwned (foundHeld named) (List.mem_filterMap.mpr ⟨r, inside, owned⟩)
      (occursOwned sound (.inl ⟨rule, foundHeld named, inside⟩) owned)
  | @through r rule part _ owns defined inside ih =>
    obtain ⟨own, lives⟩ := Option.isSome_iff_exists.mp owns
    have same := Reference.ownedCell lives
    rw [same] at defined
    exact s.store.ownedClosed (ih lives)
      (s.store.ownsIff.mpr ⟨rule, defined, List.mem_filterMap.mpr ⟨part, inside, owned⟩⟩)
      (occursOwned sound (.inr ⟨own, rule, defined, inside⟩) owned)

theorem liveReaches (sorted : s.parsers.Sorted) (acyclic : ∀ cell, ¬ TransGen s.store.Owns cell cell)
    (alive : cell ∈ s.live) : ∃ r, s.Reaches r ∧ r.owned? = some cell := by
  obtain ⟨-, root, holds, path⟩ := s.store.memOwned.mp alive
  clear alive
  induction path with
  | refl =>
    rcases holds with ⟨rule, held, owns⟩ | cycle
    · obtain ⟨⟨name, _⟩, among, rfl⟩ := List.mem_map.mp held
      obtain ⟨r, inside, owned⟩ := List.mem_filterMap.mp owns
      exact ⟨r, .held ((Table.findIff sorted).mpr among) inside, owned⟩
    · exact absurd cycle (acyclic root)
  | tail _ owns ih =>
    obtain ⟨r, reached, owned⟩ := ih
    obtain ⟨rule, defined, inside⟩ := s.store.ownsIff.mp owns
    obtain ⟨part, among, next⟩ := List.mem_filterMap.mp inside
    rw [← Reference.ownedCell owned] at defined
    exact ⟨part, .through reached (Option.isSome_of_eq_some owned) defined among, next⟩

theorem watcherTracks (acyclic : ∀ cell, ¬ TransGen (empty.after steps).store.Owns cell cell)
    (sees : (empty.after steps).Watched cell) : Tracks steps cell := by
  have sound := reachedSound steps
  -- A watched cell that is alive is reached by its finished parser, which only a definition gives.
  have reached : cell ∈ (empty.after steps).live → (empty.after steps).Reaches (.owner cell) := by
    intro alive
    obtain ⟨r, reaches, owned⟩ := liveReaches (afterSorted steps) acyclic alive
    exact watchedOwner sees (reachesOccurs reaches) owned ▸ reaches
  have leads : (empty.after steps).Reaches (.owner cell) → ∃ rule,
      (empty.after steps).store.resolve (empty.after steps).live (.weak cell) = .ok rule := by
    intro reaches
    obtain ⟨rule, defined⟩ := Option.isSome_iff_exists.mp (sound.finished cell (reachesOccurs reaches))
    refine ⟨rule, ?_⟩
    rw [Store.resolveWatching _ (reachesLive sound reaches rfl), defined]
    rfl
  by_cases reaches : (empty.after steps).Reaches (.owner cell)
  · obtain ⟨rule, same⟩ := leads reaches
    refine ⟨fun wants => ?_, ⟨fun drops => ?_, fun apart => absurd reaches apart⟩, fun _ input => ?_⟩
    · cases wants.symm.trans same
    · cases drops.symm.trans same
    · exact congrFun (Store.invokeOwner same _) input
  · have dead := Store.resolveDead (empty.after steps).store fun alive => reaches (reached alive)
    refine ⟨fun wants => ?_, ⟨fun _ => reaches, fun _ => dead⟩, fun again => absurd again reaches⟩
    cases wants.symm.trans dead

theorem recursiveFills (s : Session) (name : Option String) (self : String) (escapee : Option String)
    (g : Grammar) : (s.step (.recursive name self escapee none g)).1.store.definition?
      s.store.cells.length = some (s.bodyOf self g) := by
  have grows := (Grammar.assembleLays g ((self, .rule (.refer (.weak s.store.cells.length))) :: s.scope)
    ⟨s.store.allocate.2, []⟩).1
  have made : s.store.cells.length < s.store.allocate.2.cells.length := by
    rw [Store.allocateLength]
    exact Nat.lt_succ_self _
  rw [stepRecursive]
  exact (Store.definitionDefine _ (Nat.lt_of_lt_of_le made grows.longer) _ _).trans (if_pos rfl)

theorem recursedFilled {before later : List Step} (name : Option String) (self : String)
    (escapee : Option String) (g : Grammar) :
    Filled (before ++ .recursive name self escapee none g :: later)
      (empty.after before).store.cells.length ((empty.after before).bodyOf self g) := by
  refine ⟨before, _, later, rfl, ?_, recursiveFills _ name self escapee g⟩
  exact Option.eq_none_iff_forall_ne_some.mpr fun rule defined =>
    Nat.lt_irrefl _ ((empty.after before).store.definedMade defined)

theorem cellUsed {name : String} (found : s.cells.find? name = some cell)
    (free : s.parsers.find? name = none) :
    (s.assembled (.ref name)).1 = .refer (.handle cell s.store.issued) := by
  have parsers : Table.find? name (s.parsers.map fun p => (p.1, Meaning.rule p.2)) = none := by
    rw [Table.findMap, free]
    rfl
  have meaning : Table.find? name s.scope = some (.cell cell) := by
    rw [scope, Table.findElse parsers, Table.findMap, found]
    rfl
  rw [assembled, Grammar.assemble, Assembly.lookup, meaning]
  rfl

theorem cellAnswers {name : String} (found : s.cells.find? name = some cell)
    (free : s.parsers.find? name = none) (input : Text) :
    s.step (.parse name input) =
      (s, .found <$> s.parserOf (.refer (.handle cell s.store.issued)) input) := by
  simp only [step, parser?, free, found, parserOf, Store.issue]

theorem namedAnswers {name : String} (named : Named steps name rule) (input : Text) :
    answer steps name input = .found <$> (empty.after steps).parserOf rule input := by
  rw [answer, stepParse (namedIff.mpr named)]

theorem namedPanics {name : String} {cause : Panic} (named : Named steps name (.refer r))
    (panics : (empty.after steps).Panics r cause) (input : Text) :
    answer steps name input = Run.panic cause := by
  rw [namedAnswers named, panicsRun panics]
  rfl

theorem cellWaits {name : String} (deferred : Deferred steps name cell)
    (free : ∀ rule, ¬ Named steps name rule) :
    (∃ tag, ((empty.after steps).assembled (.ref name)).1 = .refer (.handle cell tag)) ∧
      ∀ input, answer steps name input = Run.panic .undefinedHandle := by
  have found := deferredIff.mpr deferred
  have free : (empty.after steps).parsers.find? name = none :=
    Option.eq_none_iff_forall_ne_some.mpr fun rule named => free rule (namedIff.mp named)
  have opened := (reachedSound steps).opened cell ⟨name, Table.memOfFind found⟩
  refine ⟨⟨_, cellUsed found free⟩, fun input => ?_⟩
  have waits : (empty.after steps).Panics (.handle cell (empty.after steps).store.issued)
      .undefinedHandle := (ownerFollows steps rfl).waits.mpr fun rule filled => by
    cases opened.2.symm.trans (filledIff.mp filled)
  rw [answer, cellAnswers found free, panicsRun waits]
  rfl

/-- At every point of a session in which no cell owns itself: the handle of a cell panics until the cell
is defined under its name, is never dropped, and from then on answers what the definition answers. The
handle that a parser which refers to itself gave away is never undefined: it panics if no name leads to
the parser, and otherwise answers what the parser answers. -/
theorem handlesFollowTheirCells (steps : List Step)
    (acyclic : ∀ cell, ¬ TransGen (empty.after steps).store.Owns cell cell) : Obeys steps := by
  have tracks : ∀ cell, Recursed steps cell ∨ (empty.after steps).Occurs (.weak cell) →
      Tracks steps cell := by
    rintro cell (recursed | occurs)
    · exact watcherTracks acyclic (recursedWatched recursed)
    · exact watcherTracks acyclic ((reachedSound steps).watches cell occurs)
  have named : ∀ name c, Named steps name (.refer (.weak c)) → Tracks steps c := fun name c named =>
    tracks c (.inr (.inl ⟨_, heldIff.mpr ⟨name, named⟩, List.mem_singleton_self _⟩))
  exact {
    names := fun _ _ => namedIff
    cells := fun _ _ => deferredIff
    fills := fun _ _ => filledDefined
    handled := fun _ _ => handledNamed
    escaped := fun _ _ => escapedNamed
    returns := by
      rintro before name self escapee g later rfl
      exact recursedFilled name self escapee g
    asks := fun _ _ => namedAnswers
    uses := fun _ _ deferred free => cellWaits deferred free
    panics := fun _ _ => panicsRun
    follows := fun _ => ownerFollows steps
    tracks := tracks
    waits := fun name c tag handle made undefined => by
      have follows : Follows steps (.handle c tag) := ownerFollows steps rfl
      exact namedPanics handle (follows.waits.mpr fun rule filled =>
        undefined rule ((filledDefined made).mp filled))
    answers := fun name c tag handle rule defined input ends => by
      have follows : Follows steps (.handle c tag) := ownerFollows steps rfl
      rw [namedAnswers handle] at ends ⊢
      rw [follows.answers rule (definedFilled defined) input fun endless =>
        ends (Run.stopsMap.mpr endless)]
    endless := fun leaves name c tag handle rule defined input endless => by
      have follows : Follows steps (.handle c tag) := ownerFollows steps rfl
      rw [namedAnswers handle] at endless
      exact follows.endless leaves rule (definedFilled defined) input (Run.stopsMap.mp endless)
    outlives := fun name c weak apart => namedPanics weak ((named name c weak).drops.mpr apart)
    escapes := fun name c weak reaches input => by
      rw [namedAnswers weak, (named name c weak).answers reaches] }

/-- A session with a handle of a cell, which then is filled, and with a list that refers to itself, whose
handle outlives it. -/
def itemWaits : List Step :=
  [.cell "item", .handle "item" "handle"]

def itemFilled : List Step :=
  itemWaits ++ [.define "item" none (.literal "a")]

def listNamed : List Step :=
  itemFilled ++ [.recursive (some "list") "self" (some "escaped") none
    (.choice [.sequence [.ref "handle", .ref "self"], .literal "b"])]

def listDropped : List Step :=
  listNamed ++ [.drop "handle", .drop "list"]

theorem checkedAcyclic (steps : List Step) (checked : ((empty.after steps).store.cells.zipIdx.all
    fun p => p.1.all fun rule => rule.owns.all (· < p.2)) = true) (cell : Nat) :
    ¬ TransGen (empty.after steps).store.Owns cell cell := by
  refine Store.ownsEarlier _ (fun cell next owns => ?_) cell
  obtain ⟨rule, defined, inside⟩ := (empty.after steps).store.ownsIff.mp owns
  have among : (some rule, cell) ∈ (empty.after steps).store.cells.zipIdx :=
    List.mem_zipIdx_iff_getElem?.mpr (Option.join_eq_some_iff.mp defined)
  simpa using List.all_eq_true.mp (List.all_eq_true.mp checked _ among) next inside

theorem listNamedAnswer (reaches : (empty.after listNamed).Reaches (.owner 1)) :
    (empty.after listNamed).parserOf (.refer (.owner 1)) "ab".toList =
      pure (some ⟨[], [.string "a", .string "b"]⟩) := by
  have alive := reachesLive (reachedSound listNamed) reaches rfl
  -- The list refers to itself by a handle that watches it, which is answered only while it is alive.
  have again : (empty.after listNamed).store.invoke (empty.after listNamed).live 6 (.weak 1) = _ :=
    funext (invokeLeads (Store.resolveWatching _ alive) 5)
  change ((Parser.choice [Parser.sequence [_, (empty.after listNamed).store.invoke
    (empty.after listNamed).live 6 (.weak 1)], _]) _) = _
  rw [again]
  rfl

theorem listDroppedReaches {r : Reference} (reaches : (empty.after listDropped).Reaches r) :
    r = .weak 1 := by
  induction reaches with
  | @held name rule r named inside =>
    have only := Table.memOfFind named
    cases List.mem_singleton.mp only
    exact List.mem_singleton.mp inside
  | through _ owns _ _ ih =>
    rw [ih] at owns
    contradiction

theorem droppedListHandles :
    (∀ steps ∈ [itemWaits, itemFilled, listNamed, listDropped],
      ∀ cell, ¬ TransGen (empty.after steps).store.Owns cell cell) ∧
    (∀ input, answer itemWaits "handle" input = Run.panic .undefinedHandle) ∧
    answer itemFilled "handle" "ab".toList = pure (.found (some ⟨['b'], [.string "a"]⟩)) ∧
    answer listNamed "escaped" "ab".toList = pure (.found (some ⟨[], [.string "a", .string "b"]⟩)) ∧
    (∀ input, answer listDropped "escaped" input = Run.panic .droppedHandle) := by
  have acyclic : ∀ steps ∈ [itemWaits, itemFilled, listNamed, listDropped],
      ∀ cell, ¬ TransGen (empty.after steps).store.Owns cell cell := by
    simpa using ⟨checkedAcyclic itemWaits rfl, checkedAcyclic itemFilled rfl,
      checkedAcyclic listNamed rfl, checkedAcyclic listDropped rfl⟩
  have waits := handlesFollowTheirCells itemWaits (acyclic _ (by simp))
  have fills := handlesFollowTheirCells itemFilled (acyclic _ (by simp))
  have names := handlesFollowTheirCells listNamed (acyclic _ (by simp))
  have drops := handlesFollowTheirCells listDropped (acyclic _ (by simp))
  refine ⟨acyclic, ?_, ?_, ?_, ?_⟩
  · have deferred : Deferred [.cell "item"] "item" 0 := ⟨[], [], rfl, rfl, trivial⟩
    obtain ⟨made, tag, handle⟩ := waits.handled "handle" 0 ⟨_, "item", [], rfl, deferred, trivial⟩
    refine waits.waits "handle" 0 tag handle made fun rule defined => ?_
    cases filledIff.mp ((waits.fills 0 rule made).mpr defined)
  · have handle : Named itemFilled "handle" (.refer (.handle 0 0)) := (fills.names _ _).mp rfl
    have defined : Defined itemFilled 0 (.leaf (.literal "a")) :=
      ⟨itemWaits, "item", none, .literal "a", [], rfl, (waits.cells "item" 0).mp rfl, rfl⟩
    exact fills.answers "handle" 0 0 handle _ defined "ab".toList (fun endless => by cases endless)
  · have escaped := names.escaped "escaped" 1 ⟨itemFilled, _, _, _, _, [], rfl, by simp, rfl, trivial⟩
    have list : (empty.after listNamed).parsers.find? "list" = some (.refer (.owner 1)) := rfl
    have reaches := Reaches.held list (List.mem_singleton_self _)
    rw [names.escapes "escaped" 1 escaped reaches, listNamedAnswer reaches]
    rfl
  · have escaped : Named listDropped "escaped" (.refer (.weak 1)) := (drops.names _ _).mp rfl
    refine drops.outlives "escaped" 1 escaped fun reaches => ?_
    cases listDroppedReaches reaches

end Descent.Session
