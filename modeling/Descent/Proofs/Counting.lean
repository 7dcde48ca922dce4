import Descent.Proofs.Issues
import Descent.Proofs.Stages
/-!
The handle counts that definitions report. Of names that are defined together each count is the number
of the uses of the name in all the definitions. The count of a parser that refers to itself is one if
anything that was made with it, or a copy of its handle, retains the handle, and none otherwise.
-/
namespace Descent

namespace Store
open Relation (ReflTransGen TransGen)

variable {σ : Store} {rules : List Rule} {rule : Rule} {cell : Nat} {r : Reference}

/-- One of the rules holds the reference, or a definition does to which a path of definitions leads, each
of which owns the next, from one of the rules or from a cell that owns itself. -/
def Retains (σ : Store) (rules : List Rule) (r : Reference) : Prop :=
  (∃ rule ∈ rules, r ∈ rule.references) ∨ ∃ root cell rule, σ.Root rules root ∧
    ReflTransGen σ.Owns root cell ∧ σ.definition? cell = some rule ∧ r ∈ rule.references

theorem memReferencesOfAll :
    r ∈ Rule.referencesOfAll rules ↔ ∃ rule ∈ rules, r ∈ rule.references := by
  induction rules with
  | nil => simp [Rule.referencesOfAll]
  | cons rule rules ih => simp [Rule.referencesOfAll, ih]

theorem memRetained : r ∈ σ.retained rules ↔ σ.Retains rules r := by
  rw [retained, List.mem_append, memReferencesOfAll, Retains]
  refine or_congr_right ⟨fun found => ?_, fun held => ?_⟩
  · obtain ⟨cell, alive, inside⟩ := List.mem_flatMap.mp found
    obtain ⟨-, root, holds, path⟩ := σ.memOwned.mp alive
    cases defined : σ.definition? cell with
    | none => simp [defined] at inside
    | some rule =>
      rw [defined] at inside
      exact ⟨root, cell, rule, holds, path, defined, inside⟩
  · obtain ⟨root, cell, rule, holds, path, defined, inside⟩ := held
    have alive := σ.memOwned.mpr ⟨σ.definedMade defined, root, holds, path⟩
    refine List.mem_flatMap.mpr ⟨cell, alive, ?_⟩
    rw [defined]
    exact inside

theorem eraseDupsNodup : ∀ refs : List Reference, refs.eraseDups.Nodup
  | [] => List.nodup_nil
  | r :: refs => by
    rw [List.eraseDups_cons, List.nodup_cons, List.mem_eraseDups]
    exact ⟨by simp, eraseDupsNodup (refs.filter fun q => !q == r)⟩
termination_by refs => refs.length
decreasing_by exact Nat.lt_succ_of_le (List.length_filter_le _ _)

theorem handleCountOf {held : List Reference} (distinct : held.Nodup)
    (same : ∀ r, r ∈ held ↔ r.handles cell ∧ σ.Retains rules r) :
    σ.handleCount rules cell = held.length := by
  refine List.Perm.length_eq ((List.perm_ext_iff_of_nodup (eraseDupsNodup _) distinct).mpr fun r => ?_)
  rw [List.mem_eraseDups, List.mem_filter, memRetained, same, and_comm]
  rfl

def Covers (σ : Store) (rules : List Rule) (cell : Nat) : Prop :=
  ∀ c rule, σ.definition? c = some rule → ∀ r ∈ rule.references, r.handles cell →
    r ∈ Rule.referencesOfAll rules

theorem coveredCount (covers : σ.Covers rules cell) (among : rule ∈ rules)
    (distinct : ((Rule.referencesOfAll rules).filter (·.handles cell)).Nodup) :
    σ.handleCount (rule :: rules) cell = (Rule.referencesOfAll rules).countP (·.handles cell) := by
  rw [List.countP_eq_length_filter]
  refine handleCountOf distinct fun r => ?_
  rw [List.mem_filter, and_comm]
  refine and_congr_right fun handles => ⟨fun inside => .inl ?_, fun retains => ?_⟩
  · obtain ⟨other, later, held⟩ := memReferencesOfAll.mp inside
    exact ⟨other, List.mem_cons_of_mem _ later, held⟩
  · rcases retains with ⟨other, held, inside⟩ | ⟨_, c, other, _, _, defined, inside⟩
    · rcases List.mem_cons.mp held with rfl | later
      · exact memReferencesOfAll.mpr ⟨other, among, inside⟩
      · exact memReferencesOfAll.mpr ⟨other, later, inside⟩
    · exact covers c other defined r inside handles

theorem coversDefine (covers : σ.Covers rules cell) {own : Nat} (made : own < σ.cells.length)
    (among : rule ∈ rules) : (σ.define own rule).Covers rules cell := by
  intro c other defined r inside handles
  rw [σ.definitionDefine made] at defined
  split at defined
  · cases defined
    exact memReferencesOfAll.mpr ⟨rule, among, inside⟩
  · exact covers c other defined r inside handles

section Unowned

variable (made : cell < σ.cells.length) (unowned : ∀ c, ¬ (σ.define cell rule).Owns c cell)
include made

theorem ownsElsewhere {c next : Nat} (apart : c ≠ cell) :
    (σ.define cell rule).Owns c next ↔ σ.Owns c next := by
  rw [ownsIff, ownsIff, σ.definitionDefine made, if_neg apart]

include unowned

theorem pathElsewhere {root c : Nat} (apart : root ≠ cell)
    (path : ReflTransGen (σ.define cell rule).Owns root c) :
    c ≠ cell ∧ ReflTransGen σ.Owns root c := by
  induction path with
  | refl => exact ⟨apart, .refl⟩
  | @tail c next _ owns ih =>
    refine ⟨fun same => unowned c (same ▸ owns), ih.2.tail ?_⟩
    exact (ownsElsewhere made ih.1).mp owns

theorem retainsDefine (undefined : σ.definition? cell = none)
    (apart : ∀ rule ∈ rules, cell ∉ rule.owns) :
    (σ.define cell rule).Retains rules r ↔ σ.Retains rules r := by
  have definedApart : ∀ c other, σ.definition? c = some other → c ≠ cell := by
    rintro c other defined rfl
    simp [undefined] at defined
  have ownsApart : ∀ c next, σ.Owns c next → c ≠ cell := by
    intro c next owns
    obtain ⟨other, defined, -⟩ := σ.ownsIff.mp owns
    exact definedApart c other defined
  have grows : ∀ c next, σ.Owns c next → (σ.define cell rule).Owns c next := fun c next owns =>
    (ownsElsewhere made (ownsApart c next owns)).mpr owns
  refine or_congr_right ⟨fun held => ?_, fun held => ?_⟩
  · obtain ⟨root, c, other, holds, path, defined, inside⟩ := held
    have rootApart : root ≠ cell := by
      rintro rfl
      rcases holds with ⟨other, held, owns⟩ | cycle
      · exact apart other held owns
      · obtain ⟨last, -, owns⟩ := TransGen.tail'_iff.mp cycle
        exact unowned last owns
    obtain ⟨away, path⟩ := pathElsewhere made unowned rootApart path
    rw [σ.definitionDefine made, if_neg away] at defined
    refine ⟨root, c, other, holds.imp id fun cycle => ?_, path, defined, inside⟩
    obtain ⟨last, way, owns⟩ := TransGen.tail'_iff.mp cycle
    obtain ⟨lastApart, way⟩ := pathElsewhere made unowned rootApart way
    exact TransGen.tail'_iff.mpr ⟨last, way, (ownsElsewhere made lastApart).mp owns⟩
  · obtain ⟨root, c, other, holds, path, defined, inside⟩ := held
    refine ⟨root, c, other, holds.imp id fun cycle => TransGen.mono grows _ _ cycle,
      ReflTransGen.mono grows _ _ path, ?_, inside⟩
    rw [σ.definitionDefine made, if_neg (definedApart c other defined), defined]

end Unowned

end Store

theorem numberedUnique {names : List String} {first : Nat} {d e : String × Nat}
    (one : d ∈ numbered names first) (other : e ∈ numbered names first) (same : d.2 = e.2) : d = e := by
  induction names generalizing first with
  | nil => contradiction
  | cons name names ih =>
    rcases List.mem_cons.mp one with rfl | later <;> rcases List.mem_cons.mp other with rfl | later'
    · rfl
    · exact absurd (numberedBounds e later').1 (by simp [← same])
    · exact absurd (numberedBounds d later).1 (by simp [same])
    · exact ih later later'

theorem Scope.introducesOpened {scope : Scope} {names : List String} {first : Nat}
    (distinct : names.Nodup) (known : ∀ r, scope.Offers r → r.cell < first) {d : String × Nat}
    (among : d ∈ numbered names first) :
    (opened (numbered names first) scope).Introduces d.1 d.2 where
  own rule gives := by
    let front := ((numbered names first).map fun d => (d.1, Meaning.cell d.2)).reverse
    have inside : (d.1, Meaning.cell d.2) ∈ front :=
      List.mem_reverse.mpr (List.mem_map.mpr ⟨d, among, rfl⟩)
    have keys : front.map Prod.fst = names.reverse := by
      rw [List.map_reverse, List.map_map]
      exact congrArg List.reverse (numberedNames names first)
    have found : Table.find? d.1 (opened (numbered names first) scope) = some (.cell d.2) := by
      have alone : Table.find? d.1 (front ++ scope) = Table.find? d.1 (front ++ []) :=
        Table.findBehindFront fun outside => absurd (List.mem_map_of_mem inside) outside
      rw [List.append_nil] at alone
      exact alone.trans (Table.findDistinct (keys ▸ List.nodup_reverse.mpr distinct) inside)
    rw [Gives, found] at gives
    obtain ⟨tag, rfl⟩ := gives
    exact ⟨_, rfl, Reference.issuedHandles d.2 tag⟩
  others entry inside apart r offered handles := by
    rcases List.mem_append.mp inside with named | old
    · obtain ⟨e, other, rfl⟩ := List.mem_map.mp (List.mem_reverse.mp named)
      obtain ⟨tag, rfl⟩ := Meaning.offersHandle offered
      exact apart (congrArg Prod.fst (numberedUnique other among (Reference.handlesCell handles)))
    · have below := known r ⟨entry, old, offered⟩
      rw [Reference.handlesCell handles] at below
      exact Nat.not_lt_of_le (numberedBounds d among).1 below

theorem Scope.clearKnown {scope : Scope} {first cell : Nat}
    (known : ∀ r, scope.Offers r → r.cell < first) (made : first ≤ cell) : scope.Clear cell := by
  intro name rule inside r held handles
  have below := known r ⟨_, inside, rule, rfl, held⟩
  rw [Reference.handlesCell handles] at below
  exact Nat.not_lt_of_le made below

theorem Assembly.defineAllCounts (all : List Rule) {names : List String} {rules : List Rule}
    (paired : rules.length = names.length) {first : Nat} {b : Blueprint}
    (made : first + names.length ≤ b.store.cells.length) (among : ∀ rule ∈ rules, rule ∈ all)
    (covers : ∀ d ∈ numbered names first, b.store.Covers all d.2)
    (distinct : ∀ d ∈ numbered names first,
      ((Rule.referencesOfAll all).filter (·.handles d.2)).Nodup) :
    (defineAll all (numbered names first) rules b).2.journal = b.journal ++
      (numbered names first).map fun d =>
        .defined ((Rule.referencesOfAll all).countP (·.handles d.2)) := by
  induction names generalizing first rules b with
  | nil => exact (List.append_nil b.journal).symm
  | cons name names ih =>
    cases rules with
    | nil => simp at paired
    | cons rule rules =>
      simp only [List.length_cons] at made paired
      rw [numbered, List.forall_mem_cons] at distinct
      have own : first < b.store.cells.length := by omega
      have inside := among rule List.mem_cons_self
      have room : first + 1 + names.length ≤ (define all first rule b).2.store.cells.length := by
        rw [defineStore, Store.defineLength]
        omega
      have kept : ∀ d ∈ numbered (name :: names) first,
          (define all first rule b).2.store.Covers all d.2 := fun d later =>
        Store.coversDefine (covers d later) own inside
      rw [numbered, List.forall_mem_cons] at kept
      have counted : (define all first rule b).2.journal = b.journal ++
          [.defined ((Rule.referencesOfAll all).countP (·.handles first))] := by
        rw [← Store.coveredCount kept.1 inside distinct.1]
        rfl
      have rest := ih (by omega) room (fun other later => among other (List.mem_cons_of_mem _ later))
        kept.2 distinct.2
      change (defineAll all (numbered names (first + 1)) rules
        (define all first rule b).2).2.journal = _
      rw [rest, counted, numbered, List.map_cons, List.append_assoc]
      rfl

namespace Stage

variable {scope : Scope} {b : Blueprint} {definitions : List (String × Grammar)}

theorem laidCounts (knows : b.store.Knows scope) (distinct : (definitions.map Prod.fst).Nodup)
    {d : String × Nat} (among : d ∈ numbered (definitions.map Prod.fst) b.store.cells.length)
    (direct : ∀ e ∈ definitions, e.2.direct d.1 = true) :
    let rules := (laid scope definitions b).1
    (Rule.referencesOfAll rules).countP (·.handles d.2) = Grammar.usesOfDefinitions d.1 definitions ∧
      ((Rule.referencesOfAll rules).filter (·.handles d.2)).Nodup ∧
      (laid scope definitions b).2.store.Covers rules d.2 := by
  intro rules
  obtain ⟨lower, upper⟩ := numberedBounds d among
  have made : d.2 < (opened definitions b).2.store.cells.length := by
    rw [openedLength]
    exact upper
  obtain ⟨grows, lays⟩ := laidLays scope definitions b
  have introduces : (Scope.opened (opened definitions b).1 scope).Introduces d.1 d.2 := by
    rw [openedCells]
    exact Scope.introducesOpened distinct knows.names among
  have counts := Grammar.layoutDefinitionsUses introduces definitions made direct lays
  have issued := Grammar.assembleDefinitionsIssued definitions _ (opened definitions b).2
    (Scope.clearOpened (opened definitions b).1 (Scope.clearKnown knows.names lower)) made
  refine ⟨counts.held, issued.distinct, fun c rule defined r inside handles => ?_⟩
  by_cases old : c < (opened definitions b).2.store.cells.length
  · rw [grows.keeps c old, openedDefinition] at defined
    have below := knows.cells c rule defined r inside
    rw [Reference.handlesCell handles] at below
    exact absurd below (Nat.not_lt_of_le lower)
  · have within := (laid scope definitions b).2.store.definedMade defined
    exact absurd handles (counts.cells c (Nat.le_of_not_lt old) within rule defined r inside)

theorem laidJournal (scope : Scope) (definitions : List (String × Grammar)) (b : Blueprint) :
    (laid scope definitions b).2.journal = b.journal ++
      (inTurn (Scope.opened (opened definitions b).1 scope) (opened definitions b).2
        (definitions.map Prod.snd)).flatMap written := by
  have opens : (opened definitions b).2.journal = b.journal := by
    rw [opened, Assembly.allocateAllEq]
  rw [← opens, ← inTurnJournal, ← definitionsAll]
  rfl

theorem filledJournal (knows : b.store.Knows scope) (distinct : (definitions.map Prod.fst).Nodup)
    (direct : ∀ d ∈ definitions, ∀ name ∈ definitions.map Prod.fst, d.2.direct name = true) :
    (filled scope definitions b).2.journal = (laid scope definitions b).2.journal ++
      definitions.map fun d => .defined (Grammar.usesOfDefinitions d.1 definitions) := by
  let names := definitions.map Prod.fst
  let cells := numbered names b.store.cells.length
  have keys : cells.map Prod.fst = names := numberedNames names b.store.cells.length
  have named : ∀ d ∈ cells, d.1 ∈ names := fun d among =>
    keys ▸ List.mem_map_of_mem among
  have counts : ∀ d ∈ cells, _ := fun d among =>
    laidCounts knows distinct among fun e inside => direct e inside d.1 (named d among)
  let report : String → Event := fun name => .defined (Grammar.usesOfDefinitions name definitions)
  have reports : (cells.map fun d => Event.defined
      ((Rule.referencesOfAll (laid scope definitions b).1).countP (·.handles d.2))) =
        definitions.map fun d => report d.1 := by
    calc
      _ = cells.map (report ∘ Prod.fst) :=
        List.map_congr_left fun d among => congrArg Event.defined (counts d among).1
      _ = (cells.map Prod.fst).map report := List.map_map.symm
      _ = names.map report := by rw [keys]
      _ = definitions.map fun d => report d.1 := List.map_map
  have defined := Assembly.defineAllCounts (laid scope definitions b).1
    (laidPaired scope definitions b) (laidRoom scope definitions b) (fun _ => id)
    (fun d among => (counts d among).2.2) (fun d among => (counts d among).2.1)
  rw [reports, ← openedCells] at defined
  exact defined

theorem togetherWritten {body : Grammar} (knows : b.store.Knows scope)
    (distinct : (definitions.map Prod.fst).Nodup)
    (direct : ∀ d ∈ definitions, ∀ name ∈ definitions.map Prod.fst, d.2.direct name = true) :
    written ⟨scope, b, .together definitions body⟩ =
      (inTurn (Scope.opened (opened definitions b).1 scope) (opened definitions b).2
        (definitions.map Prod.snd)).flatMap written ++
      definitions.map (fun d => .defined (Grammar.usesOfDefinitions d.1 definitions)) ++
      written ⟨(filled scope definitions b).1.reverse ++ scope, (filled scope definitions b).2, body⟩ := by
  let last : Stage :=
    ⟨(filled scope definitions b).1.reverse ++ scope, (filled scope definitions b).2, body⟩
  apply writtenOf
  change last.made.2.journal = _
  rw [madeJournal, filledJournal knows distinct direct, laidJournal, List.append_assoc,
    List.append_assoc, List.append_assoc]

end Stage

namespace Store

variable {σ : Store} {rule : Rule} {rules : List Rule} {cell : Nat} {r : Reference}

structure Watched (σ : Store) (rule : Rule) (cell : Nat) : Prop where
  made : cell < σ.cells.length
  undefined : σ.definition? cell = none
  rule : ∀ r ∈ rule.references, r.cell = cell → r = .weak cell
  cells : ∀ c inner, σ.definition? c = some inner → ∀ r ∈ inner.references, r.cell = cell →
    r = .weak cell

theorem watchedUnowned (watched : σ.Watched rule cell) :
    cell ∉ rule.owns ∧ ∀ c, ¬ (σ.define cell rule).Owns c cell := by
  have own : cell ∉ rule.owns := by
    intro owns
    obtain ⟨r, inside, owned⟩ := List.mem_filterMap.mp owns
    cases watched.rule r inside (Reference.ownedCell owned)
    contradiction
  refine ⟨own, fun c owns => ?_⟩
  obtain ⟨inner, defined, owns⟩ := (ownsIff _).mp owns
  rw [σ.definitionDefine watched.made] at defined
  split at defined
  · cases defined
    exact own owns
  · obtain ⟨r, inside, owned⟩ := List.mem_filterMap.mp owns
    cases watched.cells c inner defined r inside (Reference.ownedCell owned)
    contradiction

def OneIf (held : Prop) (n : Nat) : Prop := n = 1 ∧ held ∨ n = 0 ∧ ¬ held

namespace OneIf

variable {held other : Prop} {n : Nat}

theorem of (same : held ↔ other) (count : OneIf held n) : OneIf other n :=
  propext same ▸ count

theorem one (count : OneIf held n) (holds : held) : n = 1 :=
  count.elim And.left fun none => absurd holds none.2

theorem zero (count : OneIf held n) (fails : ¬ held) : n = 0 :=
  count.elim (fun one => absurd one.2 fails) And.left

end OneIf

theorem watchedOnly (watched : σ.Watched rule cell)
    (copies : ∀ copy ∈ rules, copy = .refer (.weak cell)) (handles : r.handles cell)
    (held : σ.Retains (rule :: rules) r) : r = .weak cell := by
  have same := Reference.handlesCell handles
  rcases held with ⟨other, held, inside⟩ | ⟨_, c, inner, _, _, defined, inside⟩
  · rcases List.mem_cons.mp held with rfl | copy
    · exact watched.rule r inside same
    · rw [copies other copy] at inside
      exact List.mem_singleton.mp inside
  · exact watched.cells c inner defined r inside same

theorem watchedCount (watched : σ.Watched rule cell)
    (copies : ∀ copy ∈ rules, copy = .refer (.weak cell)) :
    OneIf (σ.Retains (rule :: rules) (.weak cell))
      ((σ.define cell rule).handleCount (rule :: rules) cell) := by
  obtain ⟨own, unowned⟩ := watchedUnowned watched
  have apart : ∀ other ∈ rule :: rules, cell ∉ other.owns := by
    refine List.forall_mem_cons.mpr ⟨own, fun other held => ?_⟩
    rw [copies other held]
    exact List.not_mem_nil
  have retains : ∀ r, (σ.define cell rule).Retains (rule :: rules) r ↔ σ.Retains (rule :: rules) r :=
    fun _ => retainsDefine watched.made unowned watched.undefined apart
  by_cases held : σ.Retains (rule :: rules) (.weak cell)
  · refine .inl ⟨handleCountOf (List.nodup_singleton (.weak cell)) fun r => ?_, held⟩
    rw [List.mem_singleton, retains]
    constructor
    · rintro rfl
      exact ⟨Reference.weakHandles cell, held⟩
    · exact fun both => watchedOnly watched copies both.1 both.2
  · refine .inr ⟨handleCountOf List.nodup_nil fun r => ?_, held⟩
    rw [retains]
    refine ⟨fun inside => absurd inside List.not_mem_nil, fun both => ?_⟩
    exact absurd (watchedOnly watched copies both.1 both.2 ▸ both.2) held

theorem retainsCopies (copies : ∀ copy ∈ rules, copy = .refer (.weak cell)) :
    σ.Retains (rule :: rules) (.weak cell) ↔ rules ≠ [] ∨ σ.Retains [rule] (.weak cell) := by
  cases rules with
  | nil => simp
  | cons copy rules =>
    have inside := List.mem_cons_of_mem rule (List.mem_cons_self (a := copy) (l := rules))
    have held : Reference.weak cell ∈ copy.references := by
      rw [copies copy List.mem_cons_self]
      exact List.mem_singleton_self _
    exact ⟨fun _ => .inl (List.cons_ne_nil _ _), fun _ => .inl ⟨copy, inside, held⟩⟩

end Store

namespace Stage
open Assembly (allocate)
open Store (OneIf)

variable {scope : Scope} {b : Blueprint} {name : String} {body : Grammar}

def inner (scope : Scope) (b : Blueprint) (name : String) (body : Grammar) : Stage :=
  ⟨(name, .rule (.refer (.weak b.store.cells.length))) :: scope, (allocate b).2, body⟩

def Retains (p : Stage) (cell : Nat) : Prop :=
  p.made.2.store.Retains [p.made.1] (.weak cell)

theorem innerLays (scope : Scope) (b : Blueprint) (name : String) (body : Grammar) :
    let p := inner scope b name body
    Store.Grows p.blueprint.store p.made.2.store ∧ p.made.2.store.Layout p.scope body
      (b.store.cells.length + 1) p.made.1 p.made.2.store.cells.length := by
  have lays := Grammar.assembleLays body (inner scope b name body).scope (allocate b).2
  have laid := lays.2 _ (Store.sharesOwn _ _)
  rw [Assembly.allocateStore, Store.allocateLength] at laid
  exact ⟨lays.1, laid⟩

theorem innerOlder (knows : b.store.Knows scope) {c : Nat} {rule : Rule}
    (old : c < b.store.cells.length + 1)
    (defined : (inner scope b name body).made.2.store.definition? c = some rule) :
    ∀ r ∈ rule.references, r.cell ≠ b.store.cells.length := by
  intro r inside same
  have kept := (innerLays scope b name body).1.keeps c
    (b.store.allocateLength.symm ▸ old)
  rw [kept] at defined
  have before : b.store.definition? c = some rule :=
    (b.store.definitionAllocate c).symm.trans defined
  exact Nat.lt_irrefl _ (same ▸ knows.cells c rule before r inside)

theorem innerWatched (knows : b.store.Knows scope) (name : String) (body : Grammar) :
    (inner scope b name body).made.2.store.Watched (inner scope b name body).made.1
      b.store.cells.length := by
  obtain ⟨grows, lays⟩ := innerLays scope b name body
  obtain ⟨watched, sourced⟩ := Grammar.layoutSourced body lays
  have origin : ∀ r next, Scope.Origin (inner scope b name body).scope watched
      (b.store.cells.length + 1) next r → r.cell = b.store.cells.length →
      r = .weak b.store.cells.length := by
    intro r next origin same
    rcases origin with offers | ⟨new, -, -⟩
    · rcases Scope.offersCons offers with own | old
      · exact Meaning.offersRefer own
      · exact absurd (knows.names r old) (by omega)
    · omega
  refine ⟨Grammar.layoutOrder lays, ?_, fun r inside => origin r _ (sourced.rule r inside), ?_⟩
  · have allocated := grows.keeps b.store.cells.length
      (b.store.allocateLength.symm ▸ Nat.lt_succ_self _)
    rw [allocated]
    refine (b.store.definitionAllocate _).trans ?_
    rw [Store.definition?, List.getElem?_eq_none (Nat.le_refl _)]
    rfl
  · intro c rule defined r inside same
    by_cases old : c < b.store.cells.length + 1
    · exact absurd same (innerOlder knows old defined r inside)
    · have within := Store.definedMade _ defined
      exact origin r _ (sourced.cells c (Nat.le_of_not_lt old) within rule defined r inside) same

theorem innerRetains (knows : b.store.Knows scope) (direct : body.direct name = true) :
    (inner scope b name body).Retains b.store.cells.length ↔ 0 < body.uses name := by
  have handle := Reference.weakHandles b.store.cells.length
  have introduces :
      (inner scope b name body).scope.Introduces name b.store.cells.length := by
    refine ⟨fun rule gives => ?_, fun entry among apart r offered handles => ?_⟩
    · rw [inner, Scope.Gives, Table.findHead] at gives
      exact ⟨_, gives, handle⟩
    · rcases List.mem_cons.mp among with rfl | old
      · exact apart rfl
      · have below := knows.names r ⟨entry, old, offered⟩
        exact Nat.lt_irrefl _ (Reference.handlesCell handles ▸ below)
  obtain ⟨-, lays⟩ := innerLays scope b name body
  have counts := Grammar.layoutUses introduces body (Nat.lt_succ_self _) direct lays
  rw [← counts.held, List.countP_pos_iff]
  constructor
  · rintro (⟨rule, held, inside⟩ | ⟨_, c, rule, _, _, defined, inside⟩)
    · cases List.mem_singleton.mp held
      exact ⟨_, inside, handle⟩
    · by_cases old : c < b.store.cells.length + 1
      · exact absurd rfl (innerOlder knows old defined _ inside)
      · have within := Store.definedMade _ defined
        exact absurd handle (counts.cells c (Nat.le_of_not_lt old) within rule defined _ inside)
  · rintro ⟨r, inside, handles⟩
    cases (innerWatched knows name body).rule r inside (Reference.handlesCell handles)
    exact .inl ⟨_, List.mem_singleton_self _, inside⟩

theorem innerCount (knows : b.store.Knows scope) (name : String) (body : Grammar) {copies : List Rule}
    (same : ∀ copy ∈ copies, copy = .refer (.weak b.store.cells.length)) :
    let p := inner scope b name body
    OneIf (copies ≠ [] ∨ p.Retains b.store.cells.length)
      ((p.made.2.store.define b.store.cells.length p.made.1).handleCount (p.made.1 :: copies)
        b.store.cells.length) := by
  intro p
  rw [Retains, ← Store.retainsCopies same]
  exact Store.watchedCount (innerWatched knows name body) same

theorem recursiveWritten (scope : Scope) (b : Blueprint) (name : String) (body : Grammar) :
    let p := inner scope b name body
    written ⟨scope, b, .recursive name body⟩ = p.written ++
      [.defined ((p.made.2.store.define b.store.cells.length p.made.1).handleCount [p.made.1]
        b.store.cells.length)] := by
  intro p
  apply writtenOf
  have assembled := madeJournal p
  change p.made.2.journal ++ _ = _
  rw [assembled, List.append_assoc]
  rfl

end Stage

namespace Session
open Stage (inner innerCount innerRetains recursiveWritten togetherWritten partsWritten madeJournal)
open Store (OneIf)

structure Counts (steps : List Step) : Prop where
  bound (name : String) (g : Grammar) : ((empty.after steps).step (.bind name g)).2.journal =
    ((empty.after steps).stage g).written
  filled (cell : String) (c : Nat) (found : (empty.after steps).cells.find? cell = some c)
      (name : Option String) (g : Grammar) : ∃ n,
    ((empty.after steps).step (.define cell name g)).2.journal =
      ((empty.after steps).stage g).written ++ [.defined n]
  plain (p : Stage) (comes : ComesTo steps p) (none : p.grammar.binds = false) :
    p.written = p.parts.flatMap Stage.written
  together (p : Stage) (comes : ComesTo steps p) (definitions : List (String × Grammar))
      (body : Grammar) (own : p.grammar = .together definitions body)
      (distinct : (definitions.map Prod.fst).Nodup)
      (direct : ∀ d ∈ definitions, ∀ name ∈ definitions.map Prod.fst, d.2.direct name = true) :
    ∃ inner last, p.parts = inner ++ [last] ∧ p.written = inner.flatMap Stage.written ++
      definitions.map (fun d => .defined (Grammar.usesOfDefinitions d.1 definitions)) ++ last.written
  recursive (p : Stage) (comes : ComesTo steps p) (name : String) (body : Grammar)
      (own : p.grammar = .recursive name body) :
    ∃ inner n, p.parts = [inner] ∧ p.written = inner.written ++ [.defined n] ∧
      OneIf (inner.Retains p.blueprint.store.cells.length) n ∧
      (body.direct name = true →
        (inner.Retains p.blueprint.store.cells.length ↔ 0 < body.uses name))
  escaping (name : Option String) (self : String) (escapee : Option String) (g : Grammar) :
    ∃ inner n, ((empty.after steps).stage (.recursive self g)).parts = [inner] ∧
      ((empty.after steps).step (.recursive name self escapee none g)).2.journal =
        inner.written ++ [.defined n] ∧
      OneIf (escapee.isSome ∨ inner.Retains (empty.after steps).store.cells.length) n ∧
      (g.direct self = true →
        (inner.Retains (empty.after steps).store.cells.length ↔ 0 < g.uses self))

theorem defineStepJournal {s : Session} {cell : String} {c : Nat}
    (found : s.cells.find? cell = some c) (name : Option String) (g : Grammar) :
    let p := s.stage g
    (s.step (.define cell name g)).2.journal = p.written ++
      [.defined ((p.made.2.store.define c p.made.1).handleCount (p.made.1 :: s.held) c)] := by
  intro p
  have assembled := madeJournal p
  simp only [step, found]
  change p.made.2.journal ++ _ = _
  rw [assembled]
  rfl

theorem recursiveStepJournal (s : Session) (name : Option String) (self : String)
    (escapee : Option String) (g : Grammar) :
    let p := inner s.scope ⟨s.store, []⟩ self g
    (s.step (.recursive name self escapee none g)).2.journal = p.written ++
      [.defined ((p.made.2.store.define s.store.cells.length p.made.1).handleCount
        (p.made.1 :: escapee.elim [] fun _ => [.refer (.weak s.store.cells.length)])
          s.store.cells.length)] := by
  intro p
  have assembled := madeJournal p
  change p.made.2.journal ++ _ = _
  rw [assembled]
  rfl

theorem recursiveStepCount {s : Session} (sound : s.Sound) (name : Option String) (self : String)
    (escapee : Option String) (g : Grammar) :
    let p := inner s.scope ⟨s.store, []⟩ self g
    ∃ n, (s.step (.recursive name self escapee none g)).2.journal = p.written ++ [.defined n] ∧
      OneIf (escapee.isSome ∨ p.Retains s.store.cells.length) n := by
  intro p
  let copies : List Rule := escapee.elim [] fun _ => [.refer (.weak s.store.cells.length)]
  have same : ∀ copy ∈ copies, copy = .refer (.weak s.store.cells.length) := by
    cases escapee <;> simp [copies]
  have kept : copies ≠ [] ↔ escapee.isSome := by
    cases escapee <;> simp [copies]
  have count := innerCount (stageKnown sound g) self g same
  exact ⟨_, recursiveStepJournal s name self escapee g, count.of (or_congr_left kept)⟩

/-- In every session and wherever a grammar is assembled, the counts that are written are these: of names
that are defined together, each how often all the definitions use it, if no binder inside of them does;
of a name that refers to its own grammar, one if what was assembled retains the handle, or if a copy of it
is kept, and else none. What makes no cell writes no count. -/
theorem handlesAreCounted (steps : List Step) : Counts steps where
  bound _ _ := rfl
  filled _ c found name g := ⟨_, defineStepJournal found name g⟩
  plain p _ none := partsWritten p none
  together p comes definitions body own distinct direct := by
    obtain ⟨scope, b, g⟩ := p
    subst own
    exact ⟨_, _, rfl, togetherWritten (comesKnown comes) distinct direct⟩
  recursive p comes name body own := by
    obtain ⟨scope, b, g⟩ := p
    subst own
    have knows := comesKnown comes
    have count := innerCount knows name body (List.forall_mem_nil _)
    have bodyAlone := count.of (or_iff_right (not_not_intro rfl))
    exact ⟨_, _, rfl, recursiveWritten scope b name body, bodyAlone, innerRetains knows⟩
  escaping name self escapee g := by
    have sound := reachedSound steps
    obtain ⟨n, written, count⟩ := recursiveStepCount sound name self escapee g
    exact ⟨_, n, rfl, written, count, innerRetains (stageKnown sound g)⟩

theorem mutualListsAreCounted :
    let g : Grammar := .together
      [("list", .between (.literal "[") (.wrap .many (.ref "item")) (.literal "]")),
        ("item", .choice [.ref "list", .choiceOf 2 (.ref "list") (.ref "item"),
          .wrap (.times 0) (.ref "item"), Json.value])]
      (.ref "item")
    (∃ inner last, (empty.stage g).parts = inner ++ [last] ∧ (empty.stage g).written =
      inner.flatMap Stage.written ++ [.defined 2, .defined 2] ++ last.written) ∧
    (empty.step (.recursive none "self" none none (.choice [.ref "self", .ref "self"]))).2.journal =
      [.defined 1] ∧
    (empty.step (.recursive none "self" (some "copy") none (.literal "b"))).2.journal =
      [.defined 1] ∧
    (empty.step (.recursive none "self" none none (.literal "b"))).2.journal = [.defined 0] := by
  intro g
  have counts := handlesAreCounted []
  refine ⟨?_, ?_, ?_, ?_⟩
  · exact counts.together (empty.stage g) ⟨g, .refl⟩ _ _ rfl (by decide) (by decide)
  · obtain ⟨p, n, parts, written, count, direct⟩ :=
      counts.escaping none "self" none (.choice [.ref "self", .ref "self"])
    cases parts
    cases count.one (.inr ((direct rfl).mpr Nat.two_pos))
    exact written
  · obtain ⟨p, n, parts, written, count, -⟩ :=
      counts.escaping none "self" (some "copy") (.literal "b")
    cases parts
    cases count.one (.inl rfl)
    exact written
  · obtain ⟨p, n, parts, written, count, direct⟩ := counts.escaping none "self" none (.literal "b")
    cases parts
    have unused := mt (direct rfl).mp (Nat.lt_irrefl 0)
    cases count.zero (not_or_intro Bool.false_ne_true unused)
    exact written

end Session
end Descent
