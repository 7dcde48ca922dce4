import Descent.Proofs.Layout
import Descent.Proofs.Lookup
/-!
Where the references of an assembled grammar come from. Each of them, in the rule and in the definitions
that were made with it, is one that the scope offers, or it refers to a cell that was made with it. Such
a cell has handles that own it, or handles that do not, but not of both kinds.
-/
namespace Descent

def Reference.Fits (watched : Nat → Prop) : Reference → Prop
  | .owner _ => True
  | .handle cell _ => ¬ watched cell
  | .weak cell => watched cell

theorem Reference.fitsSame {watched watched' : Nat → Prop} {r : Reference} (fits : r.Fits watched)
    (same : watched r.cell ↔ watched' r.cell) : r.Fits watched' := by
  cases r with
  | owner cell => exact trivial
  | handle cell tag => exact fun sees => fits (same.mpr sees)
  | weak cell => exact same.mp fits

def Meaning.Offers (m : Meaning) (r : Reference) : Prop :=
  ∃ rule, m.Gives rule ∧ r ∈ rule.references

namespace Meaning

variable {r : Reference}

theorem offersHandle {cell : Nat} (offers : (Meaning.cell cell).Offers r) :
    ∃ tag, r = .handle cell tag := by
  obtain ⟨_, ⟨tag, rfl⟩, inside⟩ := offers
  exact ⟨tag, List.mem_singleton.mp inside⟩

theorem offersRule {rule : Rule} (offers : (Meaning.rule rule).Offers r) : r ∈ rule.references := by
  obtain ⟨_, rfl, inside⟩ := offers
  exact inside

theorem offersRefer {own : Reference} (offers : (Meaning.rule (.refer own)).Offers r) : r = own :=
  List.mem_singleton.mp (offersRule offers)

end Meaning

theorem numberedBounds {names : List String} {first : Nat} : ∀ d ∈ numbered names first,
    first ≤ d.2 ∧ d.2 < first + names.length := by
  induction names generalizing first with
  | nil => exact List.forall_mem_nil _
  | cons name names ih =>
    refine List.forall_mem_cons.mpr ⟨by simp, fun d inside => ?_⟩
    have bounds := ih d inside
    rw [List.length_cons]
    omega

namespace Scope

def Offers (scope : Scope) (r : Reference) : Prop := ∃ entry ∈ scope, entry.2.Offers r

def Origin (scope : Scope) (watched : Nat → Prop) (first next : Nat) (r : Reference) : Prop :=
  scope.Offers r ∨ first ≤ r.cell ∧ r.cell < next ∧ r.Fits watched

variable {scope inner : Scope} {watched watched' : Nat → Prop} {first next i j : Nat} {r : Reference}

theorem originWider (origin : inner.Origin watched i j r) (lower : first ≤ i) (upper : j ≤ next)
    (same : ∀ cell, i ≤ cell → cell < j → (watched cell ↔ watched' cell))
    (offers : inner.Offers r → scope.Origin watched' first next r) :
    scope.Origin watched' first next r := by
  rcases origin with offered | ⟨old, new, fits⟩
  · exact offers offered
  · exact .inr ⟨Nat.le_trans lower old, Nat.lt_of_lt_of_le new upper,
      Reference.fitsSame fits (same r.cell old new)⟩

theorem givesOffers {name : String} {rule : Rule} (gives : scope.Gives name rule)
    (inside : r ∈ rule.references) : scope.Offers r := by
  unfold Gives at gives
  cases found : Table.find? name scope with
  | none =>
    rw [found] at gives
    cases gives
    contradiction
  | some m =>
    rw [found] at gives
    exact ⟨_, Table.memOfFind found, rule, gives, inside⟩

theorem offersCons {name : String} {m : Meaning} (offers : Offers ((name, m) :: scope) r) :
    m.Offers r ∨ scope.Offers r := by
  obtain ⟨entry, inside, offered⟩ := offers
  rcases List.mem_cons.mp inside with rfl | old
  · exact .inl offered
  · exact .inr ⟨entry, old, offered⟩

theorem originCells {names : List String} (uses : Nat → Meaning)
    (offers : Offers (((numbered names first).map fun d => (d.1, uses d.2)).reverse ++ scope) r)
    (room : first + names.length ≤ next)
    (refers : ∀ cell, first ≤ cell → cell < first + names.length → (uses cell).Offers r →
      r.cell = cell ∧ r.Fits watched) : scope.Origin watched first next r := by
  obtain ⟨entry, inside, offered⟩ := offers
  rcases List.mem_append.mp inside with named | old
  · obtain ⟨d, among, rfl⟩ := List.mem_map.mp (List.mem_reverse.mp named)
    obtain ⟨lower, upper⟩ := numberedBounds d among
    obtain ⟨same, fits⟩ := refers d.2 lower upper offered
    rw [← same] at lower upper
    exact .inr ⟨lower, Nat.lt_of_lt_of_le upper room, fits⟩
  · exact .inl ⟨entry, old, offered⟩

end Scope

namespace Store

structure Sourced (σ : Store) (scope : Scope) (watched : Nat → Prop) (first : Nat) (rule : Rule)
    (next : Nat) : Prop where
  rule : ∀ r ∈ rule.references, scope.Origin watched first next r
  cells : ∀ cell, first ≤ cell → cell < next → ∀ inner, σ.definition? cell = some inner →
    ∀ r ∈ inner.references, scope.Origin watched first next r

def Watching (i : Nat) (watched watched' : Nat → Prop) (cell : Nat) : Prop :=
  if cell < i then watched cell else watched' cell

def WatchingBehind (i : Nat) (watched : Nat → Prop) (cell : Nat) : Prop :=
  i ≤ cell ∧ watched cell

variable {σ : Store} {scope : Scope} {first next i cell : Nat} {rule a b : Rule}
  {watched watched' : Nat → Prop}

theorem watchingBefore (early : cell < i) : watched cell ↔ Watching i watched watched' cell := by
  rw [Watching, if_pos early]

theorem watchingFrom (late : i ≤ cell) : watched' cell ↔ Watching i watched watched' cell := by
  rw [Watching, if_neg (Nat.not_lt_of_le late)]

theorem watchingBehind (late : i ≤ cell) : watched cell ↔ WatchingBehind i watched cell :=
  (and_iff_right late).symm

theorem sourcedNothing (none : rule.references = []) :
    ∃ watched, σ.Sourced scope watched first rule first :=
  ⟨fun _ => False, fun r inside => by simp [none] at inside,
    fun cell old new => absurd new (Nat.not_lt_of_le old)⟩

theorem sourcedFewer (sourced : ∃ watched, σ.Sourced scope watched first a next)
    (fewer : ∀ r ∈ rule.references, r ∈ a.references) :
    ∃ watched, σ.Sourced scope watched first rule next := by
  obtain ⟨watched, sourced⟩ := sourced
  exact ⟨watched, fun r inside => sourced.rule r (fewer r inside), sourced.cells⟩

theorem sourcedBoth (one : ∃ watched, σ.Sourced scope watched first a i)
    (other : ∃ watched, σ.Sourced scope watched i b next) (lower : first ≤ i) (upper : i ≤ next)
    (parts : ∀ r ∈ rule.references, r ∈ a.references ∨ r ∈ b.references) :
    ∃ watched, σ.Sourced scope watched first rule next := by
  obtain ⟨watched, one⟩ := one
  obtain ⟨watched', other⟩ := other
  have before : ∀ r, scope.Origin watched first i r →
      scope.Origin (Watching i watched watched') first next r := fun r origin =>
    Scope.originWider origin (Nat.le_refl first) upper (fun _ _ new => watchingBefore new) .inl
  have behind : ∀ r, scope.Origin watched' i next r →
      scope.Origin (Watching i watched watched') first next r := fun r origin =>
    Scope.originWider origin lower (Nat.le_refl next) (fun _ old _ => watchingFrom old) .inl
  refine ⟨Watching i watched watched', fun r inside => ?_, fun cell old new inner defined r inside => ?_⟩
  · rcases parts r inside with left | right
    · exact before r (one.rule r left)
    · exact behind r (other.rule r right)
  · by_cases early : cell < i
    · exact before r (one.cells cell old early inner defined r inside)
    · exact behind r (other.cells cell (Nat.le_of_not_lt early) new inner defined r inside)

theorem sourcedRecursive {name : String} {inner : Rule}
    (defined : σ.definition? first = some inner) (order : first + 1 ≤ next)
    (sourced : σ.Sourced ((name, .rule (.refer (.weak first))) :: scope) watched (first + 1) inner
      next) :
    σ.Sourced scope (fun cell => cell = first ∨ watched cell) first (.refer (.owner first)) next := by
  have wider : ∀ r, Scope.Origin ((name, .rule (.refer (.weak first))) :: scope) watched (first + 1)
      next r → scope.Origin (fun cell => cell = first ∨ watched cell) first next r := fun r origin =>
    Scope.originWider origin (Nat.le_succ first) (Nat.le_refl next)
      (fun cell old _ => ⟨.inr, fun sees => sees.resolve_left (by omega)⟩) fun offers => by
        rcases Scope.offersCons offers with here | old
        · cases Meaning.offersRefer here
          exact .inr ⟨Nat.le_refl first, order, .inl rfl⟩
        · exact .inl old
  refine ⟨fun r inside => ?_, fun cell old new rule found r inside => ?_⟩
  · cases List.mem_singleton.mp inside
    exact .inr ⟨Nat.le_refl first, order, trivial⟩
  · rcases Nat.eq_or_lt_of_le old with rfl | later
    · cases defined.symm.trans found
      exact wider r (sourced.rule r inside)
    · exact wider r (sourced.cells cell later new rule found r inside)

end Store

namespace Grammar
open Store (sourcedNothing sourcedFewer sourcedBoth filledSome Watching WatchingBehind watchingBefore
  watchingFrom watchingBehind)

variable {σ : Store}

theorem memReferences {rules : List Rule} {rule : Rule} {r : Reference} (among : rule ∈ rules)
    (inside : r ∈ rule.references) : r ∈ Rule.referencesOfAll rules := by
  induction rules with
  | nil => contradiction
  | cons first rules ih =>
    rcases List.mem_cons.mp among with rfl | later
    · exact List.mem_append_left _ inside
    · exact List.mem_append_right _ (ih later)

theorem layoutOrder {scope : Scope} {g : Grammar} {i j : Nat} {rule : Rule}
    (lays : σ.Layout scope g i rule j) : i ≤ j := by
  rw [layoutCells g lays]
  exact Nat.le_add_right i _

theorem layoutAllOrder {scope : Scope} {gs : List Grammar} {i j : Nat} {rules : List Rule}
    (lays : σ.LayoutAll scope gs i rules j) : i ≤ j := by
  rw [layoutAllCells gs lays]
  exact Nat.le_add_right i _

theorem layoutDefinitionsOrder {scope : Scope} {gs : List (String × Grammar)} {i j : Nat}
    {rules : List Rule} (lays : σ.LayoutDefinitions scope gs i rules j) : i ≤ j := by
  rw [layoutDefinitionsCells gs lays]
  exact Nat.le_add_right i _

theorem sourcedThree {scope : Scope} {rule a b c : Rule} {i j k l : Nat}
    (one : ∃ watched, σ.Sourced scope watched i a j) (two : ∃ watched, σ.Sourced scope watched j b k)
    (three : ∃ watched, σ.Sourced scope watched k c l) (first : i ≤ j) (second : j ≤ k) (third : k ≤ l)
    (parts : rule.references = a.references ++ b.references ++ c.references) :
    ∃ watched, σ.Sourced scope watched i rule l := by
  have pair : ∃ watched, σ.Sourced scope watched i (.choice [a, b]) k :=
    sourcedBoth one two first second (by simp [Rule.references, Rule.referencesOfAll])
  refine sourcedBoth pair three (Nat.le_trans first second) third fun r inside => ?_
  simpa [parts, Rule.references, Rule.referencesOfAll, or_assoc] using inside

mutual

theorem layoutSourced : ∀ (g : Grammar) {scope : Scope} {i j : Nat} {rule : Rule},
    σ.Layout scope g i rule j → ∃ watched, σ.Sourced scope watched i rule j
  | .leaf l, _, _, _, _, lays => by
    obtain ⟨rfl, rfl⟩ := lays
    exact sourcedNothing rfl
  | .wrap w body, _, _, _, _, lays => by
    obtain ⟨inner, rfl, laid⟩ := lays
    refine sourcedFewer (layoutSourced body laid) fun r inside => ?_
    rw [Rule.references] at inside
    split at inside
    · exact inside
    · contradiction
  | .choice members, _, _, _, _, lays => by
    obtain ⟨rules, rfl, laid⟩ := lays
    exact layoutAllSourced members laid
  | .sequence members, _, _, _, _, lays => by
    obtain ⟨rules, rfl, laid⟩ := lays
    exact sourcedFewer (layoutAllSourced members laid) fun _ => id
  | .choiceOf n member last, _, _, _, _, lays => by
    obtain ⟨a, b, k, rfl, first, second⟩ := lays
    refine sourcedBoth (layoutSourced member first) (layoutSourced last second) (layoutOrder first)
      (layoutOrder second) fun r inside => ?_
    rw [Rule.references] at inside
    rcases List.mem_append.mp inside with copy | final
    · split at copy
      · contradiction
      · exact .inl copy
    · exact .inr final
  | .between left middle right, _, _, _, _, lays => by
    obtain ⟨a, b, c, k, l, rfl, first, second, third⟩ := lays
    exact sourcedThree (layoutSourced left first) (layoutSourced middle second)
      (layoutSourced right third) (layoutOrder first) (layoutOrder second) (layoutOrder third) rfl
  | .block start terminator escape, _, _, _, _, lays => by
    obtain ⟨a, b, c, k, l, rfl, first, second, third⟩ := lays
    exact sourcedThree (layoutSourced start first) (layoutSourced terminator second)
      (layoutSourced escape third) (layoutOrder first) (layoutOrder second) (layoutOrder third) rfl
  | .ref name, _, _, _, _, lays => by
    obtain ⟨gives, rfl⟩ := lays
    exact ⟨fun _ => False, fun r inside => .inl (Scope.givesOffers gives inside),
      fun cell old new => absurd new (Nat.not_lt_of_le old)⟩
  | .recursive name body, scope, i, j, _, lays => by
    obtain ⟨rfl, inner, defined, laid⟩ := lays
    obtain ⟨watched, sourced⟩ := layoutSourced body laid
    exact ⟨_, Store.sourcedRecursive defined (layoutOrder laid) sourced⟩
  | .together definitions body, scope, i, j, rule, lays => by
    obtain ⟨rules, k, filled, inner, outer⟩ := lays
    obtain ⟨watched, first⟩ := layoutDefinitionsSourced definitions inner
    obtain ⟨watched', second⟩ := layoutSourced body outer
    have below := layoutDefinitionsOrder inner
    have above := layoutOrder outer
    have room : i + (definitions.map Prod.fst).length ≤ j := by
      rw [List.length_map]
      exact Nat.le_trans below above
    have defining : ∀ r, Scope.Origin _ watched (i + definitions.length) k r →
        scope.Origin (WatchingBehind (i + definitions.length) (Watching k watched watched')) i j r :=
      fun r origin => Scope.originWider origin (Nat.le_add_right ..) above
        (fun _ old new => (watchingBefore new).trans (watchingBehind old)) fun offers =>
          Scope.originCells .cell offers room fun cell _ named here => by
            obtain ⟨tag, rfl⟩ := Meaning.offersHandle here
            rw [List.length_map] at named
            exact ⟨rfl, fun sees => Nat.not_lt_of_le sees.1 named⟩
    have finished : ∀ r, Scope.Origin _ watched' k j r →
        scope.Origin (WatchingBehind (i + definitions.length) (Watching k watched watched')) i j r :=
      fun r origin => Scope.originWider origin (Nat.le_trans (Nat.le_add_right ..) below) (Nat.le_refl j)
        (fun _ old _ => (watchingFrom old).trans (watchingBehind (Nat.le_trans below old)))
        fun offers => Scope.originCells (fun c => .rule (.refer (.owner c))) offers room
          fun cell _ _ here => by
            cases Meaning.offersRefer here
            exact ⟨rfl, trivial⟩
    refine ⟨_, fun r inside => finished r (second.rule r inside),
      fun cell old new made found r inside => ?_⟩
    by_cases named : cell < i + definitions.length
    · obtain ⟨rule, among, defined⟩ := filledSome filled old (by rwa [List.length_map])
      cases defined.symm.trans found
      exact defining r (first.rule r (memReferences among inside))
    · by_cases early : cell < k
      · exact defining r (first.cells cell (Nat.le_of_not_lt named) early made found r inside)
      · exact finished r (second.cells cell (Nat.le_of_not_lt early) new made found r inside)

theorem layoutAllSourced : ∀ (gs : List Grammar) {scope : Scope} {i j : Nat} {rules : List Rule},
    σ.LayoutAll scope gs i rules j → ∃ watched, σ.Sourced scope watched i (.choice rules) j
  | [], _, _, _, _, lays => by
    obtain ⟨rfl, rfl⟩ := lays
    exact sourcedNothing rfl
  | g :: gs, _, _, _, _, lays => by
    obtain ⟨rule, others, k, rfl, first, rest⟩ := lays
    exact sourcedBoth (layoutSourced g first) (layoutAllSourced gs rest) (layoutOrder first)
      (layoutAllOrder rest) fun _ => List.mem_append.mp

theorem layoutDefinitionsSourced : ∀ (gs : List (String × Grammar)) {scope : Scope} {i j : Nat}
    {rules : List Rule}, σ.LayoutDefinitions scope gs i rules j →
      ∃ watched, σ.Sourced scope watched i (.choice rules) j
  | [], _, _, _, _, lays => by
    obtain ⟨rfl, rfl⟩ := lays
    exact sourcedNothing rfl
  | (_, g) :: gs, _, _, _, _, lays => by
    obtain ⟨rule, others, k, rfl, first, rest⟩ := lays
    exact sourcedBoth (layoutSourced g first) (layoutDefinitionsSourced gs rest) (layoutOrder first)
      (layoutDefinitionsOrder rest) fun _ => List.mem_append.mp

end

end Grammar
end Descent
