import Descent.Session
import Descent.Proofs.Ownership
import Descent.Proofs.Sources
/-!
What one step can do to a session. Cells are only added, and a cell is filled at most once, while it has
a name or with the step that makes it. Every reference that a step puts somewhere it has from a rule that
a name holds or from a cell that has a name, or it refers to a cell that is new.
-/
namespace Descent.Session

def Holds (s : Session) (r : Reference) : Prop := ∃ rule ∈ s.held, r ∈ rule.references

def Occurs (s : Session) (r : Reference) : Prop :=
  s.Holds r ∨ ∃ cell rule, s.store.definition? cell = some rule ∧ r ∈ rule.references

def Open (s : Session) (cell : Nat) : Prop := ∃ name, (name, cell) ∈ s.cells

/-- The cell is left to the handle that does not own it: no name and no other handle leads to it. -/
def Watched (s : Session) (cell : Nat) : Prop :=
  ¬ s.Open cell ∧ ∀ tag, ¬ s.Occurs (.handle cell tag)

inductive Fresh (watched : Nat → Prop) (s t : Session) : Reference → Prop where
  | issued {cell tag} (opened : s.Open cell) : Fresh watched s t (.handle cell tag)
  | finished {cell} (opened : s.Open cell) (defined : (t.store.definition? cell).isSome) :
      Fresh watched s t (.owner cell)
  | made {r} (new : s.store.cells.length ≤ r.cell) (within : r.cell < t.store.cells.length)
      (fits : r.Fits watched) (owned : r.owned?.isSome → (t.store.definition? r.cell).isSome) :
      Fresh watched s t r

def Source (watched : Nat → Prop) (s t : Session) (r : Reference) : Prop :=
  s.Holds r ∨ Fresh watched s t r

structure Moves (watched : Nat → Prop) (s t : Session) : Prop where
  longer : s.store.cells.length ≤ t.store.cells.length
  keeps : ∀ cell rule, s.store.definition? cell = some rule → t.store.definition? cell = some rule
  defines : ∀ cell rule, t.store.definition? cell = some rule →
    s.store.definition? cell = some rule ∨ (s.store.cells.length ≤ cell ∨ s.Open cell) ∧
      ¬ t.Open cell ∧ ∀ r ∈ rule.references, Source watched s t r
  holds : ∀ rule ∈ t.held, rule ∈ s.held ∨ ∀ r ∈ rule.references, Source watched s t r
  opens : (∀ entry ∈ t.cells, entry ∈ s.cells) ∨ ∃ name,
    t.cells = s.cells.insert name s.store.cells.length ∧
      s.store.cells.length < t.store.cells.length ∧ ¬ watched s.store.cells.length

/-- What every session that is reached by steps is like. -/
structure Sound (s : Session) : Prop where
  opened : ∀ cell, s.Open cell → cell < s.store.cells.length ∧ s.store.definition? cell = none
  alone : ∀ a ∈ s.cells, ∀ b ∈ s.cells, a.2 = b.2 → a.1 = b.1
  known : ∀ r, s.Occurs r → r.cell < s.store.cells.length
  finished : ∀ cell, s.Occurs (.owner cell) → (s.store.definition? cell).isSome
  watches : ∀ cell, s.Occurs (.weak cell) → s.Watched cell

variable {s t : Session} {watched : Nat → Prop} {rule other : Rule} {r : Reference}

theorem heldNamed {name : Option String} (inside : other ∈ (s.named name rule).held) :
    other = rule ∨ other ∈ s.held := by
  cases name with
  | none => exact .inr inside
  | some name =>
    obtain ⟨entry, among, rfl⟩ := List.mem_map.mp inside
    rcases Table.memInsert among with rfl | old
    · exact .inl rfl
    · exact .inr (List.mem_map_of_mem old)

theorem scopeOffers (offers : Scope.Offers s.scope r) :
    s.Holds r ∨ ∃ cell tag, s.Open cell ∧ r = .handle cell tag := by
  obtain ⟨entry, inside, offered⟩ := offers
  rcases List.mem_append.mp inside with parser | cell
  · obtain ⟨p, among, rfl⟩ := List.mem_map.mp parser
    exact .inl ⟨p.2, List.mem_map_of_mem among, Meaning.offersRule offered⟩
  · obtain ⟨c, among, rfl⟩ := List.mem_map.mp cell
    obtain ⟨tag, rfl⟩ := Meaning.offersHandle offered
    exact .inr ⟨c.2, tag, ⟨c.1, among⟩, rfl⟩

theorem originSource
    (origin : s.scope.Origin watched s.store.cells.length t.store.cells.length r)
    (fills : ∀ cell, s.store.cells.length ≤ cell → cell < t.store.cells.length →
      (t.store.definition? cell).isSome) : Source watched s t r := by
  rcases origin with offers | ⟨new, within, fits⟩
  · rcases scopeOffers offers with held | ⟨cell, tag, opened, rfl⟩
    · exact .inl held
    · exact .inr (.issued opened)
  · exact .inr (.made new within fits fun _ => fills _ new within)

theorem sourceReference (fresh : Fresh watched s t r) :
    ∀ part ∈ (Rule.refer r).references, Source watched s t part :=
  List.forall_mem_singleton.mpr (.inr fresh)

theorem movesStill (longer : s.store.cells.length ≤ t.store.cells.length)
    (same : ∀ cell, t.store.definition? cell = s.store.definition? cell)
    (holds : ∀ rule ∈ t.held, rule ∈ s.held ∨ ∀ r ∈ rule.references, Source watched s t r)
    (opens : (∀ entry ∈ t.cells, entry ∈ s.cells) ∨ ∃ name,
      t.cells = s.cells.insert name s.store.cells.length ∧
        s.store.cells.length < t.store.cells.length ∧ ¬ watched s.store.cells.length) :
    Moves watched s t where
  longer := longer
  keeps cell _ defined := (same cell).trans defined
  defines cell _ defined := .inl ((same cell).symm.trans defined)
  holds := holds
  opens := opens

theorem movesGrown (sound : s.Sound) (grows : Store.Grows s.store t.store)
    (sourced : t.store.Sourced s.scope watched s.store.cells.length rule t.store.cells.length)
    (holds : ∀ other ∈ t.held, other ∈ s.held ∨ ∀ r ∈ other.references, Source watched s t r)
    (cells : t.cells = s.cells) : Moves watched s t where
  longer := grows.longer
  keeps cell rule defined := (grows.keeps cell (s.store.definedMade defined)).trans defined
  defines cell rule defined := by
    by_cases old : cell < s.store.cells.length
    · exact .inl ((grows.keeps cell old).symm.trans defined)
    · have new := Nat.le_of_not_lt old
      refine .inr ⟨.inl new, fun opened => ?_, fun r inside => ?_⟩
      · rw [Open, cells] at opened
        exact old (sound.opened cell opened).1
      · have within := t.store.definedMade defined
        exact originSource (sourced.cells cell new within rule defined r inside) grows.fills
  holds := holds
  opens := .inl fun entry inside => cells ▸ inside

def assembled (s : Session) (g : Grammar) : Rule × Blueprint :=
  g.assemble s.scope ⟨s.store, []⟩

theorem assembledLays (s : Session) (g : Grammar) :
    Store.Grows s.store (s.assembled g).2.store ∧ (s.assembled g).2.store.Layout s.scope g
      s.store.cells.length (s.assembled g).1 (s.assembled g).2.store.cells.length :=
  have lays := Grammar.assembleLays g s.scope ⟨s.store, []⟩
  ⟨lays.1, lays.2 _ (Store.sharesOwn _ _)⟩

theorem stepDefine {cell : String} {c : Nat} (found : s.cells.find? cell = some c)
    (name : Option String) (g : Grammar) : (s.step (.define cell name g)).1 =
      Session.named ⟨(s.assembled g).2.store.define c (s.assembled g).1, s.parsers, s.cells.erase cell⟩
        name (.refer (.owner c)) := by
  simp only [step, found]
  rfl

theorem stepRecursive (name : Option String) (self : String) (escapee : Option String) (g : Grammar) :
    (s.step (.recursive name self escapee none g)).1 =
      (Session.named {s with store := (s.assembled (.recursive self g)).2.store} escapee
        (.refer (.weak s.store.cells.length))).named name (.refer (.owner s.store.cells.length)) :=
  rfl

theorem bindMoves (sound : s.Sound) (name : String) (g : Grammar) :
    ∃ watched, Moves watched s (s.step (.bind name g)).1 := by
  obtain ⟨grows, lays⟩ := s.assembledLays g
  obtain ⟨watched, sourced⟩ := Grammar.layoutSourced g lays
  refine ⟨watched, movesGrown sound grows sourced (fun other inside => ?_) rfl⟩
  rcases heldNamed inside with rfl | old
  · exact .inr fun r own => originSource (sourced.rule r own) grows.fills
  · exact .inl old

theorem eraseCloses (sound : s.Sound) {cell : String} {c : Nat} (found : s.cells.find? cell = some c) :
    ∀ name, (name, c) ∉ s.cells.erase cell := by
  intro name inside
  obtain ⟨old, apart⟩ := List.mem_filter.mp inside
  have same := sound.alone _ old _ (Table.memOfFind found) rfl
  exact absurd same (by simpa using apart)

theorem movesFilled (sound : s.Sound) {σ : Store} {cell : String} {c : Nat}
    (found : s.cells.find? cell = some c) (grows : Store.Grows s.store σ)
    (sourced : σ.Sourced s.scope watched s.store.cells.length rule σ.cells.length)
    (store : t.store = σ.define c rule) (cells : t.cells = s.cells.erase cell)
    (holds : ∀ other ∈ t.held, other = .refer (.owner c) ∨ other ∈ s.held) : Moves watched s t := by
  have named : s.Open c := ⟨cell, Table.memOfFind found⟩
  obtain ⟨made, undefined⟩ := sound.opened c named
  -- The cell is filled with the rule; all others are as the assembly left them.
  have filled : ∀ x, t.store.definition? x = if x = c then some rule else σ.definition? x := by
    rw [store]
    exact σ.definitionDefine (Nat.lt_of_lt_of_le made grows.longer) rule
  have length : t.store.cells.length = σ.cells.length := by rw [store, Store.defineLength]
  have closed : ∀ x, t.Open x → s.Open x ∧ x ≠ c := by
    rintro x ⟨name, inside⟩
    rw [cells] at inside
    refine ⟨⟨name, List.mem_of_mem_filter inside⟩, fun same => ?_⟩
    exact eraseCloses sound found name (same ▸ inside)
  have sources : ∀ r, s.scope.Origin watched s.store.cells.length σ.cells.length r →
      Source watched s t r := fun r origin =>
    originSource (length ▸ origin) fun x new within => by
      rw [filled]
      split
      · rfl
      · exact grows.fills x new (length ▸ within)
  refine ⟨length ▸ grows.longer, fun x other defined => ?_, fun x other defined => ?_,
    fun other inside => ?_, .inl fun entry inside => ?_⟩
  · have apart : x ≠ c := by
      rintro rfl
      simp [undefined] at defined
    rw [filled, if_neg apart, grows.keeps x (s.store.definedMade defined), defined]
  · rw [filled] at defined
    split at defined
    · rename_i same
      cases defined
      exact .inr ⟨.inr (same ▸ named), fun opened => (closed x opened).2 same,
        fun r inside => sources r (sourced.rule r inside)⟩
    · by_cases old : x < s.store.cells.length
      · exact .inl ((grows.keeps x old).symm.trans defined)
      · have new := Nat.le_of_not_lt old
        refine .inr ⟨.inl new, fun opened => old (sound.opened x (closed x opened).1).1, ?_⟩
        have within := σ.definedMade defined
        exact fun r inside => sources r (sourced.cells x new within other defined r inside)
  · rcases holds other inside with rfl | old
    · exact .inr (sourceReference (.finished named (by rw [filled, if_pos rfl]; rfl)))
    · exact .inl old
  · rw [cells] at inside
    exact List.mem_of_mem_filter inside

theorem defineMoves (sound : s.Sound) {cell : String} {c : Nat} (found : s.cells.find? cell = some c)
    (name : Option String) (g : Grammar) :
    ∃ watched, Moves watched s (s.step (.define cell name g)).1 := by
  obtain ⟨grows, lays⟩ := s.assembledLays g
  obtain ⟨watched, sourced⟩ := Grammar.layoutSourced g lays
  rw [stepDefine found]
  exact ⟨watched, movesFilled sound found grows sourced rfl rfl fun _ => heldNamed⟩

theorem recursiveMoves (sound : s.Sound) (name : Option String) (self : String)
    (escapee : Option String) (probe : Option Text) (g : Grammar) :
    ∃ watched, watched s.store.cells.length ∧
      s.store.cells.length < (s.step (.recursive name self escapee probe g)).1.store.cells.length ∧
      Moves watched s (s.step (.recursive name self escapee probe g)).1 := by
  cases probe with
  | some input =>
    have longer : s.store.cells.length < s.store.allocate.2.cells.length := by
      rw [Store.allocateLength]
      exact Nat.lt_succ_self _
    refine ⟨fun _ => True, trivial, longer, movesStill (Nat.le_of_lt longer) s.store.definitionAllocate
      (fun other inside => ?_) (.inl fun _ => id)⟩
    rcases heldNamed inside with rfl | old
    · exact .inr (sourceReference (.made (Nat.le_refl _) longer trivial (by simp [Reference.owned?])))
    · exact .inl old
  | none =>
    obtain ⟨grows, lays⟩ := s.assembledLays (.recursive self g)
    obtain ⟨own, inner, defined, laid⟩ := lays
    obtain ⟨watched, sourced⟩ := Grammar.layoutSourced g laid
    have within := Grammar.layoutOrder laid
    -- Only from the body's own sources is it known that the new cell is one that is watched.
    have whole := Store.sourcedRecursive defined within sourced
    refine ⟨_, .inl rfl, within, movesGrown sound grows (own.symm ▸ whole) (fun other inside => ?_) rfl⟩
    rcases heldNamed inside with rfl | inside
    · exact .inr (sourceReference
        (.made (Nat.le_refl _) within trivial fun _ => Option.isSome_of_eq_some defined))
    · rcases heldNamed inside with rfl | old
      · exact .inr (sourceReference
          (.made (Nat.le_refl _) within (.inl rfl) (by simp [Reference.owned?])))
      · exact .inl old

theorem movesQuiet (store : t.store = s.store) (parsers : ∀ entry ∈ t.parsers, entry ∈ s.parsers)
    (cells : ∀ entry ∈ t.cells, entry ∈ s.cells) : ∃ watched, Moves watched s t := by
  refine ⟨fun _ => False, movesStill (Nat.le_of_eq (by rw [store])) (fun _ => by rw [store])
    (fun rule inside => ?_) (.inl cells)⟩
  obtain ⟨entry, among, rfl⟩ := List.mem_map.mp inside
  exact .inl (List.mem_map_of_mem (parsers entry among))

theorem movesNothing (s : Session) : ∃ watched, Moves watched s s :=
  movesQuiet rfl (fun _ => id) fun _ => id

theorem stepMoves (sound : s.Sound) (step : Step) : ∃ watched, Moves watched s (s.step step).1 := by
  cases step with
  | cell name =>
    have longer : s.store.cells.length < s.store.allocate.2.cells.length := by
      rw [Store.allocateLength]
      exact Nat.lt_succ_self _
    exact ⟨fun _ => False, movesStill (Nat.le_of_lt longer) s.store.definitionAllocate
      (fun _ => .inl) (.inr ⟨name, rfl, longer, id⟩)⟩
  | handle cell name =>
    cases found : s.cells.find? cell with
    | none =>
      simp only [Session.step, found]
      exact movesNothing s
    | some c =>
      simp only [Session.step, found]
      refine ⟨fun _ => False, movesStill (Nat.le_refl _) (fun _ => rfl) (fun other inside => ?_)
        (.inl fun _ => id)⟩
      rcases heldNamed inside with rfl | old
      · exact .inr (sourceReference (.issued ⟨cell, Table.memOfFind found⟩))
      · exact .inl old
  | define cell name g =>
    cases found : s.cells.find? cell with
    | none =>
      simp only [Session.step, found]
      exact movesNothing s
    | some c => exact defineMoves sound found name g
  | bind name g => exact bindMoves sound name g
  | recursive name self escapee probe g =>
    obtain ⟨watched, -, -, moves⟩ := recursiveMoves sound name self escapee probe g
    exact ⟨watched, moves⟩
  | drop name =>
    simp only [Session.step]
    split
    · exact movesQuiet rfl (fun _ => List.mem_of_mem_filter) fun _ => id
    · split
      · exact movesQuiet rfl (fun _ => id) fun _ => List.mem_of_mem_filter
      · exact movesNothing s
  | parse name input =>
    simp only [Session.step]
    split <;> exact movesNothing s
  | parseAll name input =>
    simp only [Session.step]
    split <;> exact movesNothing s
  | describe name =>
    simp only [Session.step]
    split <;> exact movesNothing s

end Descent.Session
