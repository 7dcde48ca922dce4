import Descent.Proofs.Forward
/-!
What names hold, said by the steps. A parser has its name from the last step that touched the name. A cell
has its name from the step that made it until the name is taken, and is filled by the definition under its
name and by no other step.
-/
namespace Descent.Session

inductive Gives (s : Session) (name : String) : Step → Rule → Prop where
  | handle {cell c} (found : s.cells.find? cell = some c) :
      Gives s name (.handle cell name) (.refer (.handle c s.store.issued))
  | finished {cell c g} (found : s.cells.find? cell = some c) :
      Gives s name (.define cell (some name) g) (.refer (.owner c))
  | bound {g} : Gives s name (.bind name g) (s.assembled g).1
  | returned {self escapee g} :
      Gives s name (.recursive (some name) self escapee none g) (.refer (.owner s.store.cells.length))
  | escaped {bound self probe g} (other : bound = some name → probe.isSome) :
      Gives s name (.recursive bound self (some name) probe g) (.refer (.weak s.store.cells.length))

def Takes (s : Session) (cell : String) : Step → Prop
  | .cell made => made = cell
  | .define defined _ _ => defined = cell
  | .drop dropped => dropped = cell ∧ s.parsers.find? cell = none
  | _ => False

def Untaken (s : Session) (cell : String) : List Step → Prop
  | [] => True
  | step :: steps => ¬ s.Takes cell step ∧ Untaken (s.step step).1 cell steps

/-- A step has put the rule under the name, and none has touched the name since. -/
def Named (steps : List Step) (name : String) (rule : Rule) : Prop :=
  ∃ before step later, steps = before ++ step :: later ∧ (empty.after before).Gives name step rule ∧
    ((empty.after before).step step).1.Untouched name later

def Made (steps : List Step) (c : Nat) : Prop :=
  ∃ before cell later, steps = before ++ .cell cell :: later ∧ c = (empty.after before).store.cells.length

/-- The cell was made under the name and still has it. -/
def Deferred (steps : List Step) (cell : String) (c : Nat) : Prop :=
  ∃ before later, steps = before ++ .cell cell :: later ∧ c = (empty.after before).store.cells.length ∧
    ((empty.after before).step (.cell cell)).1.Untaken cell later

def Handled (steps : List Step) (name : String) (c : Nat) : Prop :=
  ∃ before cell later, steps = before ++ .handle cell name :: later ∧ Deferred before cell c ∧
    ((empty.after before).step (.handle cell name)).1.Untouched name later

def Escaped (steps : List Step) (name : String) (c : Nat) : Prop :=
  ∃ before bound self probe g later,
    steps = before ++ .recursive bound self (some name) probe g :: later ∧
    (bound = some name → probe.isSome) ∧ c = (empty.after before).store.cells.length ∧
    ((empty.after before).step (.recursive bound self (some name) probe g)).1.Untouched name later

def Filled (steps : List Step) (c : Nat) (rule : Rule) : Prop :=
  ∃ before step later, steps = before ++ step :: later ∧
    (empty.after before).store.definition? c = none ∧
    ((empty.after before).step step).1.store.definition? c = some rule

def Defined (steps : List Step) (c : Nat) (rule : Rule) : Prop :=
  ∃ before cell name g later, steps = before ++ .define cell name g :: later ∧
    Deferred before cell c ∧ rule = ((empty.after before).assembled g).1

variable {s : Session} {steps later : List Step} {step : Step} {name cell : String} {rule : Rule} {c : Nat}

section

variable {holds : Session → Prop} {gives touches : Session → Step → Prop}
  {since : Session → List Step → Prop}

theorem sinceAppend (more : ∀ s step steps, since s (step :: steps) ↔
    ¬ touches s step ∧ since (s.step step).1 steps) (none : ∀ s, since s [])
    (before : since s later) (untouched : ¬ touches (s.after later) step) :
    since s (later ++ [step]) := by
  induction later generalizing s with
  | nil => exact (more s step []).mpr ⟨untouched, none _⟩
  | cons first later ih =>
    obtain ⟨here, before⟩ := (more s first later).mp before
    exact (more s first _).mpr ⟨here, ih before untouched⟩

theorem sinceHolds (more : ∀ s step steps, since s (step :: steps) ↔
    ¬ touches s step ∧ since (s.step step).1 steps)
    (kept : ∀ s step, ¬ touches s step → (holds (s.step step).1 ↔ holds s))
    (untouched : since s later) (held : holds s) : holds (s.after later) := by
  induction later generalizing s with
  | nil => exact held
  | cons first later ih =>
    obtain ⟨here, untouched⟩ := (more s first later).mp untouched
    exact ih untouched ((kept s first here).mpr held)

/-- What only some steps touch is as the last of them left it. -/
theorem lastTouch (holds : Session → Prop) (gives touches : Session → Step → Prop)
    (since : Session → List Step → Prop) (start : ¬ holds empty) (none : ∀ s, since s [])
    (more : ∀ s step steps, since s (step :: steps) ↔ ¬ touches s step ∧ since (s.step step).1 steps)
    (kept : ∀ s step, ¬ touches s step → (holds (s.step step).1 ↔ holds s))
    (given : ∀ s step, gives s step → holds (s.step step).1)
    (touched : ∀ s step, touches s step → holds (s.step step).1 → gives s step) :
    holds (empty.after steps) ↔ ∃ before step later, steps = before ++ step :: later ∧
      gives (empty.after before) step ∧ since ((empty.after before).step step).1 later := by
  constructor
  · intro held
    induction steps using List.reverseRecOn with
    | nil => exact absurd held start
    | append_singleton steps last ih =>
      rw [afterAppend] at held
      by_cases touch : touches (empty.after steps) last
      · exact ⟨steps, last, [], rfl, touched _ _ touch held, none _⟩
      · obtain ⟨before, step, later, rfl, gives, untouched⟩ := ih ((kept _ _ touch).mp held)
        rw [afterAppend] at touch
        exact ⟨before, step, later ++ [last], by simp, gives, sinceAppend more none untouched touch⟩
  · rintro ⟨before, step, later, rfl, gives, untouched⟩
    have held := sinceHolds more kept untouched (given _ _ gives)
    rw [afterAppend]
    exact held

end

theorem givesFinds (gives : s.Gives name step rule) :
    (s.step step).1.parsers.find? name = some rule := by
  have put : ∀ (t : Session) rule, (t.named (some name) rule).parsers.find? name = some rule :=
    fun t rule => (Table.findInsert t.parsers name name rule).trans (if_pos rfl)
  cases gives with
  | handle found =>
    simp only [Session.step, found]
    exact put _ _
  | finished found =>
    rw [stepDefine found]
    exact put _ _
  | bound => exact put _ _
  | returned =>
    rw [stepRecursive]
    exact put _ _
  | @escaped bound self probe g other =>
    cases probe with
    | some input => exact put _ _
    | none =>
      rw [stepRecursive, findNamed fun same => Bool.noConfusion (other same)]
      exact put _ _

theorem rebindsGives (rebinds : s.Rebinds name step)
    (found : (s.step step).1.parsers.find? name = some rule) : s.Gives name step rule := by
  -- What the step gives is what is found, and a name that is dropped is not found.
  have only : ∀ {other}, s.Gives name step other → s.Gives name step rule := fun gives => by
    cases (givesFinds gives).symm.trans found
    exact gives
  cases step with
  | handle cell bound =>
    obtain ⟨rfl, some⟩ := rebinds
    obtain ⟨c, named⟩ := Option.isSome_iff_exists.mp some
    exact only (.handle named)
  | define cell bound g =>
    obtain ⟨rfl, some⟩ := rebinds
    obtain ⟨c, named⟩ := Option.isSome_iff_exists.mp some
    exact only (.finished named)
  | bind bound g =>
    cases rebinds
    exact only .bound
  | recursive bound self escapee probe g =>
    by_cases own : bound = some name ∧ probe = none
    · obtain ⟨rfl, rfl⟩ := own
      exact only .returned
    · obtain rfl := rebinds.resolve_right own
      exact only (.escaped fun same => Option.isSome_iff_ne_none.mpr fun none => own ⟨same, none⟩)
  | drop dropped =>
    cases rebinds
    simp only [Session.step] at found
    split at found
    · rw [Table.findErase, if_pos rfl] at found
      contradiction
    · rename_i absent
      split at found <;> exact absurd (Option.isSome_of_eq_some found) absent
  | _ => contradiction

theorem namedIff : (empty.after steps).parsers.find? name = some rule ↔ Named steps name rule :=
  lastTouch (fun s => s.parsers.find? name = some rule) (fun s step => s.Gives name step rule)
    (fun s => s.Rebinds name) (fun s => s.Untouched name) (fun found => by cases found)
    (fun _ => trivial) (fun _ _ _ => Iff.rfl) (fun _ _ untouched => by rw [stepFinds untouched])
    (fun _ _ => givesFinds) fun _ _ => rebindsGives

theorem cellFinds (s : Session) (cell : String) :
    (s.step (.cell cell)).1.cells.find? cell = some s.store.cells.length :=
  (Table.findInsert s.cells cell cell _).trans (if_pos rfl)

theorem stepCells (untaken : ¬ s.Takes cell step) :
    (s.step step).1.cells.find? cell = s.cells.find? cell := by
  cases step with
  | cell made => exact (Table.findInsert s.cells made cell _).trans (if_neg fun same => untaken same.symm)
  | define defined name g =>
    have apart : ¬ cell = defined := fun same => untaken same.symm
    cases found : s.cells.find? defined with
    | none => simp only [Session.step, found]
    | some c =>
      rw [stepDefine found]
      exact (Table.findErase s.cells defined cell).trans (if_neg apart)
  | recursive name self escapee probe g => cases probe <;> rfl
  | drop dropped =>
    simp only [Session.step]
    split
    · rfl
    · rename_i absent
      split
      · refine (Table.findErase s.cells dropped cell).trans (if_neg fun same => untaken ⟨same.symm, ?_⟩)
        rw [same]
        exact Option.not_isSome_iff_eq_none.mp absent
      · rfl
  | bind name g => rfl
  | _ =>
    simp only [Session.step]
    split <;> rfl

theorem takesFinds (takes : s.Takes cell step) (found : (s.step step).1.cells.find? cell = some c) :
    step = .cell cell ∧ c = s.store.cells.length := by
  cases step with
  | cell made =>
    cases takes
    exact ⟨rfl, Option.some.inj (found.symm.trans (cellFinds s _))⟩
  | define defined name g =>
    cases takes
    cases named : s.cells.find? cell with
    | none =>
      simp only [Session.step, named] at found
      contradiction
    | some other =>
      rw [stepDefine named] at found
      cases found.symm.trans ((Table.findErase s.cells cell cell).trans (if_pos rfl))
  | drop dropped =>
    obtain ⟨rfl, absent⟩ := takes
    simp only [Session.step, absent] at found
    split at found
    · contradiction
    · split at found
      · cases found.symm.trans ((Table.findErase s.cells dropped dropped).trans (if_pos rfl))
      · rename_i missing
        exact absurd (Option.isSome_of_eq_some found) missing
  | _ => contradiction

theorem deferredIff : (empty.after steps).cells.find? cell = some c ↔ Deferred steps cell c := by
  refine (lastTouch (fun s => s.cells.find? cell = some c)
    (fun s step => step = .cell cell ∧ c = s.store.cells.length) (fun s => s.Takes cell)
    (fun s => s.Untaken cell) (fun found => by cases found) (fun _ => trivial) (fun _ _ _ => Iff.rfl)
    (fun _ _ untaken => by rw [stepCells untaken]) ?_ fun _ _ => takesFinds).trans ?_
  · rintro s _ ⟨rfl, rfl⟩
    exact cellFinds s cell
  · constructor
    · rintro ⟨before, _, later, rfl, ⟨rfl, same⟩, untaken⟩
      exact ⟨before, later, rfl, same, untaken⟩
    · rintro ⟨before, later, rfl, same, untaken⟩
      exact ⟨before, _, later, rfl, ⟨rfl, same⟩, untaken⟩

theorem handledNamed (handled : Handled steps name c) :
    Made steps c ∧ ∃ tag, Named steps name (.refer (.handle c tag)) := by
  obtain ⟨before, cell, later, rfl, deferred, untouched⟩ := handled
  have found := deferredIff.mpr deferred
  obtain ⟨first, between, rfl, made, -⟩ := deferred
  exact ⟨⟨first, cell, between ++ .handle cell name :: later, by simp, made⟩, _, _, _, later, rfl,
    .handle found, untouched⟩

theorem escapedNamed (escaped : Escaped steps name c) : Named steps name (.refer (.weak c)) := by
  obtain ⟨before, bound, self, probe, g, later, rfl, other, rfl, untouched⟩ := escaped
  exact ⟨before, _, later, rfl, .escaped other, untouched⟩

theorem namedSorted (sorted : s.parsers.Sorted) (name : Option String) (rule : Rule) :
    (s.named name rule).parsers.Sorted := by
  cases name with
  | none => exact sorted
  | some name => exact Table.insertSorted sorted name rule

theorem stepSorted (sorted : s.parsers.Sorted) (step : Step) : (s.step step).1.parsers.Sorted := by
  cases step with
  | cell cell => exact sorted
  | handle cell name =>
    simp only [Session.step]
    split
    · exact sorted
    · exact Table.insertSorted sorted name _
  | define cell name g =>
    simp only [Session.step]
    split
    · exact sorted
    · exact namedSorted sorted name _
  | bind name g => exact Table.insertSorted sorted name _
  | recursive name self escapee probe g =>
    cases probe with
    | some input => exact namedSorted sorted escapee _
    | none => exact namedSorted (namedSorted sorted escapee _) name _
  | drop name =>
    simp only [Session.step]
    split
    · exact List.Pairwise.filter _ sorted
    · split <;> exact sorted
  | _ =>
    simp only [Session.step]
    split <;> exact sorted

theorem afterSorted (steps : List Step) : (empty.after steps).parsers.Sorted := by
  induction steps using List.reverseRecOn with
  | nil => exact List.Pairwise.nil
  | append_singleton steps step ih =>
    rw [afterAppend]
    exact stepSorted ih step

theorem heldIff : rule ∈ (empty.after steps).held ↔ ∃ name, Named steps name rule := by
  constructor
  · intro held
    obtain ⟨⟨name, other⟩, inside, rfl⟩ := List.mem_map.mp held
    exact ⟨name, namedIff.mp ((Table.findIff (afterSorted steps)).mpr inside)⟩
  · rintro ⟨name, named⟩
    exact foundHeld (namedIff.mpr named)

theorem filledIff : Filled steps c rule ↔ (empty.after steps).store.definition? c = some rule := by
  constructor
  · rintro ⟨before, step, later, rfl, -, defined⟩
    rw [afterAppend]
    exact (afterLater (stepSound (reachedSound before) step) later).keeps c rule defined
  · intro defined
    induction steps using List.reverseRecOn with
    | nil => simp [after, empty, Store.empty, Store.definition?] at defined
    | append_singleton steps step ih =>
      rw [afterAppend] at defined
      cases before : (empty.after steps).store.definition? c with
      | none => exact ⟨steps, step, [], rfl, before, defined⟩
      | some old =>
        have kept := (stepLater (reachedSound steps) step).keeps c old before
        cases kept.symm.trans defined
        obtain ⟨first, filling, rest, rfl, empty, fills⟩ := ih before
        exact ⟨first, filling, rest ++ [step], by simp, empty, fills⟩

theorem defineFills (sound : s.Sound) (found : s.cells.find? cell = some c) (name : Option String)
    (g : Grammar) : (s.step (.define cell name g)).1.store.definition? c = some (s.assembled g).1 := by
  obtain ⟨made, -⟩ := sound.opened c ⟨cell, Table.memOfFind found⟩
  have grows := (s.assembledLays g).1
  rw [stepDefine found]
  exact (Store.definitionDefine _ (Nat.lt_of_lt_of_le made grows.longer) _ c).trans (if_pos rfl)

theorem stepFills (sound : s.Sound) (made : c < s.store.cells.length)
    (undefined : s.store.definition? c = none)
    (filled : (s.step step).1.store.definition? c = some rule) : ∃ cell name g,
      step = .define cell name g ∧ s.cells.find? cell = some c ∧ rule = (s.assembled g).1 := by
  have assembled : ∀ g, (s.assembled g).2.store.definition? c = none := fun g =>
    ((s.assembledLays g).1.keeps c made).trans undefined
  have allocated := (s.store.definitionAllocate c).trans undefined
  cases step with
  | cell name => cases filled.symm.trans allocated
  | handle cell name =>
    simp only [Session.step] at filled
    split at filled <;> cases filled.symm.trans undefined
  | define cell name g =>
    cases found : s.cells.find? cell with
    | none =>
      simp only [Session.step, found] at filled
      cases filled.symm.trans undefined
    | some other =>
      have room := Nat.lt_of_lt_of_le (sound.opened other ⟨cell, Table.memOfFind found⟩).1
        (s.assembledLays g).1.longer
      rw [stepDefine found] at filled
      have one := (Store.definitionDefine _ room _ c).symm.trans filled
      split at one
      · rename_i same
        exact ⟨cell, name, g, rfl, same ▸ found, (Option.some.inj one).symm⟩
      · cases one.symm.trans (assembled g)
  | bind name g => cases filled.symm.trans (assembled g)
  | recursive name self escapee probe g =>
    cases probe with
    | some input => cases filled.symm.trans allocated
    | none =>
      rw [stepRecursive] at filled
      cases filled.symm.trans (assembled (.recursive self g))
  | drop name =>
    simp only [Session.step] at filled
    split at filled
    · cases filled.symm.trans undefined
    · split at filled <;> cases filled.symm.trans undefined
  | _ =>
    simp only [Session.step] at filled
    split at filled <;> cases filled.symm.trans undefined

theorem afterFills (sound : s.Sound) (made : c < s.store.cells.length)
    (undefined : s.store.definition? c = none)
    (filled : (s.after steps).store.definition? c = some rule) : ∃ between cell name g later,
      steps = between ++ .define cell name g :: later ∧ (s.after between).cells.find? cell = some c ∧
        rule = ((s.after between).assembled g).1 := by
  induction steps generalizing s with
  | nil => cases filled.symm.trans undefined
  | cons step steps ih =>
    have grows := stepLater sound step
    cases here : (s.step step).1.store.definition? c with
    | none =>
      obtain ⟨between, cell, name, g, later, rfl, found, same⟩ := ih (stepSound sound step)
        (Nat.lt_of_lt_of_le made grows.longer) here filled
      exact ⟨step :: between, cell, name, g, later, rfl, found, same⟩
    | some first =>
      obtain ⟨cell, name, g, rfl, found, rfl⟩ := stepFills sound made undefined here
      have kept := (afterLater (stepSound sound _) steps).keeps c _ here
      exact ⟨[], cell, name, g, steps, rfl, found, Option.some.inj (filled.symm.trans kept)⟩

theorem definedFilled (defined : Defined steps c rule) : Filled steps c rule := by
  obtain ⟨before, cell, name, g, later, rfl, deferred, rfl⟩ := defined
  have found := deferredIff.mpr deferred
  have sound := reachedSound before
  obtain ⟨-, undefined⟩ := sound.opened c ⟨cell, Table.memOfFind found⟩
  exact ⟨before, _, later, rfl, undefined, defineFills sound found name g⟩

theorem filledDefined (made : Made steps c) : Filled steps c rule ↔ Defined steps c rule := by
  refine ⟨fun filled => ?_, definedFilled⟩
  obtain ⟨before, cell, rest, rfl, rfl⟩ := made
  have sound := stepSound (reachedSound before) (.cell cell)
  have opened := sound.opened _ ⟨cell, Table.memOfFind (cellFinds (empty.after before) cell)⟩
  have defined := filledIff.mp filled
  rw [afterAppend] at defined
  obtain ⟨between, own, name, g, later, rfl, found, same⟩ := afterFills sound opened.1 opened.2 defined
  have whole : (empty.after (before ++ .cell cell :: between)) =
      ((empty.after before).step (.cell cell)).1.after between := afterAppend _ before _
  rw [← whole] at found same
  exact ⟨_, own, name, g, later, by simp, deferredIff.mp found, same⟩

end Descent.Session
