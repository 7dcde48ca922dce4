import Descent.Json.Grammar
import Descent.Parens
import Descent.Proofs.Sources
import Descent.Proofs.Substitution
/-!
How often a grammar uses a name. What a grammar becomes depends on its free names alone, so a grammar
without the name holds no handle of the name's cell. Where the name gives a handle at every use, the
handles in the rule are as many as the uses of the name that the grammar keeps.
-/
namespace Descent

theorem Table.findBehindFront {α : Type} {front rest rest' : Table α} {x : String}
    (same : x ∉ front.map Prod.fst → find? x rest = find? x rest') :
    find? x (front ++ rest) = find? x (front ++ rest') := by
  induction front with
  | nil => exact same List.not_mem_nil
  | cons entry front ih =>
    rw [List.cons_append, List.cons_append, find?, find?]
    split
    · rfl
    · rename_i apart
      refine ih fun outside => same ?_
      rw [List.map_cons, List.mem_cons, not_or]
      exact ⟨apart, outside⟩

theorem numberedNames (names : List String) (first : Nat) :
    (numbered names first).map Prod.fst = names := by
  induction names generalizing first with
  | nil => rfl
  | cons name names ih => rw [numbered, List.map_cons, ih]

def Reference.handles (cell : Nat) (r : Reference) : Bool :=
  r.isHandle && r.cell == cell

theorem Reference.handlesCell {cell : Nat} {r : Reference} (handles : r.handles cell) :
    r.cell = cell := by
  simp only [Reference.handles, Bool.and_eq_true, beq_iff_eq] at handles
  exact handles.2

@[simp]
theorem Reference.issuedHandles (cell tag : Nat) : (Reference.handle cell tag).handles cell := by
  simp [Reference.handles, Reference.isHandle, Reference.cell]

@[simp]
theorem Reference.weakHandles (cell : Nat) : (Reference.weak cell).handles cell := by
  simp [Reference.handles, Reference.isHandle, Reference.cell]

namespace Grammar

section Names

variable {σ : Store}

theorem findFronted (means : Nat → Meaning) {definitions : List (String × Grammar)} {first : Nat}
    {scope scope' : Scope} {x : String}
    (same : x ∉ definitions.map Prod.fst → Table.find? x scope = Table.find? x scope') :
    Table.find? x (((numbered (definitions.map Prod.fst) first).map
        fun d => (d.1, means d.2)).reverse ++ scope) =
      Table.find? x (((numbered (definitions.map Prod.fst) first).map
        fun d => (d.1, means d.2)).reverse ++ scope') := by
  refine Table.findBehindFront fun outside => same fun named => outside ?_
  rw [List.map_reverse, List.mem_reverse, List.map_map]
  exact (numberedNames (definitions.map Prod.fst) first).symm ▸ named

mutual

theorem layoutNames : ∀ (g : Grammar) {scope scope' : Scope} {i j : Nat} {rule : Rule},
    (∀ x ∈ g.free, Table.find? x scope = Table.find? x scope') →
      σ.Layout scope g i rule j → σ.Layout scope' g i rule j
  | .leaf _, _, _, _, _, _, _, lays => lays
  | .wrap _ body, _, _, _, _, _, same, lays => by
    obtain ⟨inner, made, laid⟩ := lays
    exact ⟨inner, made, layoutNames body same laid⟩
  | .choice members, _, _, _, _, _, same, lays => by
    obtain ⟨rules, made, laid⟩ := lays
    exact ⟨rules, made, layoutAllNames members same laid⟩
  | .sequence members, _, _, _, _, _, same, lays => by
    obtain ⟨rules, made, laid⟩ := lays
    exact ⟨rules, made, layoutAllNames members same laid⟩
  | .choiceOf _ member last, _, _, _, _, _, same, lays => by
    simp only [free, List.forall_mem_append] at same
    obtain ⟨a, b, k, made, first, second⟩ := lays
    exact ⟨a, b, k, made, layoutNames member same.1 first, layoutNames last same.2 second⟩
  | .between left middle right, _, _, _, _, _, same, lays => by
    simp only [free, List.forall_mem_append] at same
    obtain ⟨a, b, c, k, l, made, first, second, third⟩ := lays
    exact ⟨a, b, c, k, l, made, layoutNames left same.1.1 first,
      layoutNames middle same.1.2 second, layoutNames right same.2 third⟩
  | .block start terminator escape, _, _, _, _, _, same, lays => by
    simp only [free, List.forall_mem_append] at same
    obtain ⟨a, b, c, k, l, made, first, second, third⟩ := lays
    exact ⟨a, b, c, k, l, made, layoutNames start same.1.1 first,
      layoutNames terminator same.1.2 second, layoutNames escape same.2 third⟩
  | .ref name, _, _, _, _, _, same, lays => by
    obtain ⟨gives, stays⟩ := lays
    rw [Scope.Gives, same name List.mem_cons_self] at gives
    exact ⟨gives, stays⟩
  | .recursive name body, _, _, _, _, _, same, lays => by
    obtain ⟨made, inner, defined, laid⟩ := lays
    refine ⟨made, inner, defined, layoutNames body (fun x inside => ?_) laid⟩
    rw [Table.find?, Table.find?]
    split
    · rfl
    · rename_i apart
      exact same x (memWithout.mpr ⟨inside, by simpa using apart⟩)
  | .together definitions body, _, _, _, _, _, same, lays => by
    obtain ⟨rules, k, filled, inner, outer⟩ := lays
    have outside : ∀ x ∈ freeOfDefinitions definitions ++ body.free,
        x ∉ definitions.map Prod.fst → Table.find? x _ = Table.find? x _ :=
      fun x inside apart => same x (memWithout.mpr ⟨inside, apart⟩)
    refine ⟨rules, k, filled, layoutDefinitionsNames definitions (fun x inside => ?_) inner,
      layoutNames body (fun x inside => ?_) outer⟩
    · exact findFronted .cell (outside x (List.mem_append_left _ inside))
    · exact findFronted (fun c => .rule (.refer (.owner c)))
        (outside x (List.mem_append_right _ inside))

theorem layoutAllNames : ∀ (gs : List Grammar) {scope scope' : Scope} {i j : Nat}
    {rules : List Rule}, (∀ x ∈ freeOfAll gs, Table.find? x scope = Table.find? x scope') →
      σ.LayoutAll scope gs i rules j → σ.LayoutAll scope' gs i rules j
  | [], _, _, _, _, _, _, lays => lays
  | g :: gs, _, _, _, _, _, same, lays => by
    simp only [freeOfAll, List.forall_mem_append] at same
    obtain ⟨rule, others, k, made, first, rest⟩ := lays
    exact ⟨rule, others, k, made, layoutNames g same.1 first, layoutAllNames gs same.2 rest⟩

theorem layoutDefinitionsNames : ∀ (gs : List (String × Grammar)) {scope scope' : Scope}
    {i j : Nat} {rules : List Rule},
    (∀ x ∈ freeOfDefinitions gs, Table.find? x scope = Table.find? x scope') →
      σ.LayoutDefinitions scope gs i rules j → σ.LayoutDefinitions scope' gs i rules j
  | [], _, _, _, _, _, _, lays => lays
  | (_, g) :: gs, _, _, _, _, _, same, lays => by
    simp only [freeOfDefinitions, List.forall_mem_append] at same
    obtain ⟨rule, others, k, made, first, rest⟩ := lays
    exact ⟨rule, others, k, made, layoutNames g same.1 first, layoutDefinitionsNames gs same.2 rest⟩

end

end Names

mutual

/-- How often the grammar uses the name in what is kept of it: once below copies, however many they
are, and not at all if there are none. What binders refer to does not count. -/
def uses (name : String) : Grammar → Nat
  | .leaf _ => 0
  | .wrap w body => if w.keeps then uses name body else 0
  | .choice members => usesOfAll name members
  | .sequence members => usesOfAll name members
  | .choiceOf n member last => (if n = 0 then 0 else uses name member) + uses name last
  | .between left middle right => uses name left + uses name middle + uses name right
  | .block start terminator escape => uses name start + uses name terminator + uses name escape
  | .ref x => if x = name then 1 else 0
  | .recursive _ _ => 0
  | .together _ _ => 0

def usesOfAll (name : String) : List Grammar → Nat
  | [] => 0
  | g :: gs => uses name g + usesOfAll name gs

end

def usesOfDefinitions (name : String) (definitions : List (String × Grammar)) : Nat :=
  usesOfAll name (definitions.map Prod.snd)

mutual

/-- Whether no binder inside the grammar refers to the name. Without binders none does, nor does a binder
that refers to nothing outside of it. -/
def direct (name : String) : Grammar → Bool
  | .leaf _ => true
  | .wrap _ body => direct name body
  | .choice members => directAll name members
  | .sequence members => directAll name members
  | .choiceOf _ member last => direct name member && direct name last
  | .between left middle right => direct name left && direct name middle && direct name right
  | .block start terminator escape =>
    direct name start && direct name terminator && direct name escape
  | .ref _ => true
  | .recursive own body => !(Grammar.recursive own body).free.contains name
  | .together definitions body => !(Grammar.together definitions body).free.contains name

def directAll (name : String) : List Grammar → Bool
  | [] => true
  | g :: gs => direct name g && directAll name gs

end

theorem premadeDirect (name : String) :
    Json.value.direct name = true ∧ Parens.matcher.direct name = true :=
  ⟨rfl, rfl⟩

end Grammar

structure Scope.Introduces (scope : Scope) (name : String) (cell : Nat) : Prop where
  own : ∀ rule, scope.Gives name rule → ∃ r, rule = .refer r ∧ r.handles cell
  others : ∀ entry ∈ scope, entry.1 ≠ name → ∀ r, entry.2.Offers r → ¬ r.handles cell

namespace Store

variable {σ : Store} {cell i j k m n : Nat} {refs others : List Reference}

structure Counts (σ : Store) (cell i j n : Nat) (refs : List Reference) : Prop where
  held : refs.countP (·.handles cell) = n
  cells : ∀ c, i ≤ c → c < j → ∀ inner, σ.definition? c = some inner →
    ∀ r ∈ inner.references, ¬ r.handles cell

theorem countsNothing : σ.Counts cell i i 0 [] :=
  ⟨rfl, fun _ old new => absurd new (Nat.not_lt_of_le old)⟩

theorem countsBoth (first : σ.Counts cell i k m refs) (second : σ.Counts cell k j n others) :
    σ.Counts cell i j (m + n) (refs ++ others) := by
  refine ⟨by rw [List.countP_append, first.held, second.held], fun c old new => ?_⟩
  by_cases early : c < k
  · exact first.cells c old early
  · exact second.cells c (Nat.le_of_not_lt early) new

theorem countsKept {kept : Prop} [Decidable kept] (counts : σ.Counts cell i j n refs) :
    σ.Counts cell i j (if kept then n else 0) (if kept then refs else []) := by
  split
  · exact counts
  · exact ⟨rfl, counts.cells⟩

end Store

namespace Grammar
open Store (Counts countsNothing countsBoth countsKept)

variable {σ : Store} {scope : Scope} {name : String} {cell : Nat}

theorem layoutPasses {g : Grammar} {i j : Nat} {rule : Rule}
    (introduces : scope.Introduces name cell) (made : cell < i) (outside : name ∉ g.free)
    (lays : σ.Layout scope g i rule j) : σ.Counts cell i j 0 rule.references := by
  have laid : σ.Layout (Table.erase name scope) g i rule j := by
    refine layoutNames g (fun x inside => ?_) lays
    have apart : x ≠ name := fun same => outside (same ▸ inside)
    rw [Table.findErase, if_neg apart]
  obtain ⟨watched, sourced⟩ := layoutSourced g laid
  have none : ∀ r, Scope.Origin (Table.erase name scope) watched i j r → ¬ r.handles cell := by
    intro r origin handles
    rcases origin with ⟨entry, inside, offered⟩ | ⟨new, -, -⟩
    · obtain ⟨old, apart⟩ := List.mem_filter.mp inside
      exact introduces.others entry old (by simpa using apart) r offered handles
    · rw [Reference.handlesCell handles] at new
      exact Nat.not_lt_of_le new made
  refine ⟨List.countP_eq_zero.mpr fun r inside => none r (sourced.rule r inside), ?_⟩
  exact fun c old new inner defined r inside => none r (sourced.cells c old new inner defined r inside)

mutual

theorem layoutUses (introduces : scope.Introduces name cell) : ∀ (g : Grammar) {i j : Nat}
    {rule : Rule}, cell < i → g.direct name = true → σ.Layout scope g i rule j →
      σ.Counts cell i j (g.uses name) rule.references
  | .leaf _, _, _, _, _, _, lays => by
    obtain ⟨rfl, rfl⟩ := lays
    exact countsNothing
  | .wrap _ body, _, _, _, made, direct, lays => by
    obtain ⟨inner, rfl, laid⟩ := lays
    exact countsKept (layoutUses introduces body made direct laid)
  | .choice members, _, _, _, made, direct, lays => by
    obtain ⟨rules, rfl, laid⟩ := lays
    exact layoutAllUses introduces members made direct laid
  | .sequence members, _, _, _, made, direct, lays => by
    obtain ⟨rules, rfl, laid⟩ := lays
    exact layoutAllUses introduces members made direct laid
  | .choiceOf n member last, _, _, _, made, direct, lays => by
    simp only [Grammar.direct, Bool.and_eq_true] at direct
    obtain ⟨a, b, k, rfl, first, second⟩ := lays
    have copies := layoutUses introduces member made direct.1 first
    have final := layoutUses introduces last (Nat.lt_of_lt_of_le made (layoutOrder first)) direct.2
      second
    refine countsBoth (k := k) ?_ final
    split
    · exact ⟨rfl, copies.cells⟩
    · exact copies
  | .between left middle right, _, _, _, made, direct, lays => by
    simp only [Grammar.direct, Bool.and_eq_true] at direct
    obtain ⟨a, b, c, k, l, rfl, first, second, third⟩ := lays
    have order := Nat.lt_of_lt_of_le made (layoutOrder first)
    exact countsBoth (countsBoth (layoutUses introduces left made direct.1.1 first)
      (layoutUses introduces middle order direct.1.2 second))
      (layoutUses introduces right (Nat.lt_of_lt_of_le order (layoutOrder second)) direct.2 third)
  | .block start terminator escape, _, _, _, made, direct, lays => by
    simp only [Grammar.direct, Bool.and_eq_true] at direct
    obtain ⟨a, b, c, k, l, rfl, first, second, third⟩ := lays
    have order := Nat.lt_of_lt_of_le made (layoutOrder first)
    exact countsBoth (countsBoth (layoutUses introduces start made direct.1.1 first)
      (layoutUses introduces terminator order direct.1.2 second))
      (layoutUses introduces escape (Nat.lt_of_lt_of_le order (layoutOrder second)) direct.2 third)
  | .ref x, _, _, _, made, _, lays => by
    rw [uses]
    split
    · rename_i same
      subst same
      obtain ⟨gives, rfl⟩ := lays
      obtain ⟨r, rfl, handles⟩ := introduces.own _ gives
      exact ⟨by simp [Rule.references, handles],
        fun _ old new => absurd new (Nat.not_lt_of_le old)⟩
    · rename_i apart
      exact layoutPasses introduces made (by simpa [free] using Ne.symm apart) lays
  | .recursive _ _, _, _, _, made, direct, lays =>
    layoutPasses introduces made (by simpa [Grammar.direct] using direct) lays
  | .together _ _, _, _, _, made, direct, lays =>
    layoutPasses introduces made (by simpa [Grammar.direct] using direct) lays

theorem layoutAllUses (introduces : scope.Introduces name cell) : ∀ (gs : List Grammar) {i j : Nat}
    {rules : List Rule}, cell < i → directAll name gs = true → σ.LayoutAll scope gs i rules j →
      σ.Counts cell i j (usesOfAll name gs) (Rule.referencesOfAll rules)
  | [], _, _, _, _, _, lays => by
    obtain ⟨rfl, rfl⟩ := lays
    exact countsNothing
  | g :: gs, _, _, _, made, direct, lays => by
    simp only [directAll, Bool.and_eq_true] at direct
    obtain ⟨rule, others, k, rfl, first, rest⟩ := lays
    exact countsBoth (layoutUses introduces g made direct.1 first)
      (layoutAllUses introduces gs (Nat.lt_of_lt_of_le made (layoutOrder first)) direct.2 rest)

end

theorem layoutDefinitionsUses (introduces : scope.Introduces name cell)
    (gs : List (String × Grammar)) {i j : Nat} {rules : List Rule} (made : cell < i)
    (direct : ∀ d ∈ gs, d.2.direct name = true) (lays : σ.LayoutDefinitions scope gs i rules j) :
    σ.Counts cell i j (usesOfDefinitions name gs) (Rule.referencesOfAll rules) := by
  induction gs generalizing i rules with
  | nil =>
    obtain ⟨rfl, rfl⟩ := lays
    exact countsNothing
  | cons d gs ih =>
    obtain ⟨here, later⟩ := List.forall_mem_cons.mp direct
    obtain ⟨rule, others, k, rfl, first, rest⟩ := lays
    exact countsBoth (layoutUses introduces d.2 made here first)
      (ih (Nat.lt_of_lt_of_le made (layoutOrder first)) later rest)

end Grammar
end Descent
