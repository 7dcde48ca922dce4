import Mathlib.Data.List.Forall2
import Descent.Blueprint
/-!
What assembling a grammar leaves in the store, without the steps that lead there. The cells of a
grammar are numbered from the outside in and from left to right: a grammar has the cells from one
number up to another, and its names are cells with the definitions that the grammar gives them.
-/
namespace Descent

def numbered : List String → Nat → List (String × Nat)
  | [], _ => []
  | name :: names, first => (name, first) :: numbered names (first + 1)

def Meaning.Gives : Meaning → Rule → Prop
  | .rule r, made => made = r
  | .cell c, made => ∃ tag, made = .refer (.handle c tag)

namespace Scope

def Gives (scope : Scope) (name : String) (rule : Rule) : Prop :=
  (Table.find? name scope).elim (rule = .leaf .fail) (Meaning.Gives · rule)

def opened (cells : List (String × Nat)) (scope : Scope) : Scope :=
  (cells.map fun d => (d.1, Meaning.cell d.2)).reverse ++ scope

def closed (cells : List (String × Nat)) (scope : Scope) : Scope :=
  (cells.map fun d => (d.1, Meaning.rule (.refer (.owner d.2)))).reverse ++ scope

end Scope

namespace Store

def Filled (σ : Store) (cells : List (String × Nat)) (rules : List Rule) : Prop :=
  List.Forall₂ (fun d rule => σ.definition? d.2 = some rule) cells rules

mutual

def Layout (σ : Store) (scope : Scope) : Grammar → Nat → Rule → Nat → Prop
  | .leaf l, first, rule, next => rule = .leaf l ∧ next = first
  | .wrap w body, first, rule, next =>
    ∃ inner, rule = .wrap w inner ∧ Layout σ scope body first inner next
  | .choice members, first, rule, next =>
    ∃ rules, rule = .choice rules ∧ LayoutAll σ scope members first rules next
  | .sequence members, first, rule, next =>
    ∃ rules, rule = .sequence rules ∧ LayoutAll σ scope members first rules next
  | .choiceOf n member last, first, rule, next => ∃ a b i, rule = .choiceOf n a b ∧
    Layout σ scope member first a i ∧ Layout σ scope last i b next
  | .between left middle right, first, rule, next => ∃ a b c i j, rule = .between a b c ∧
    Layout σ scope left first a i ∧ Layout σ scope middle i b j ∧ Layout σ scope right j c next
  | .block start terminator escape, first, rule, next => ∃ a b c i j, rule = .block a b c ∧
    Layout σ scope start first a i ∧ Layout σ scope terminator i b j ∧ Layout σ scope escape j c next
  | .ref name, first, rule, next => scope.Gives name rule ∧ next = first
  | .recursive name body, first, rule, next => rule = .refer (.owner first) ∧
    ∃ inner, σ.definition? first = some inner ∧
      Layout σ ((name, .rule (.refer (.weak first))) :: scope) body (first + 1) inner next
  | .together definitions body, first, rule, next =>
    let cells := numbered (definitions.map Prod.fst) first
    ∃ rules i, σ.Filled cells rules ∧
      LayoutDefinitions σ (scope.opened cells) definitions (first + definitions.length) rules i ∧
      Layout σ (scope.closed cells) body i rule next

def LayoutAll (σ : Store) (scope : Scope) : List Grammar → Nat → List Rule → Nat → Prop
  | [], first, rules, next => rules = [] ∧ next = first
  | g :: gs, first, rules, next => ∃ rule others i, rules = rule :: others ∧
    Layout σ scope g first rule i ∧ LayoutAll σ scope gs i others next

def LayoutDefinitions (σ : Store) (scope : Scope) :
    List (String × Grammar) → Nat → List Rule → Nat → Prop
  | [], first, rules, next => rules = [] ∧ next = first
  | (_, g) :: gs, first, rules, next => ∃ rule others i, rules = rule :: others ∧
    Layout σ scope g first rule i ∧ LayoutDefinitions σ scope gs i others next

end

structure Grows (σ σ' : Store) : Prop where
  longer : σ.cells.length ≤ σ'.cells.length
  keeps : ∀ cell < σ.cells.length, σ'.definition? cell = σ.definition? cell
  fills : ∀ cell, σ.cells.length ≤ cell → cell < σ'.cells.length → (σ'.definition? cell).isSome

def Shares (τ σ σ' : Store) : Prop :=
  ∀ cell, σ.cells.length ≤ cell → cell < σ'.cells.length → τ.definition? cell = σ'.definition? cell

variable {σ σ' σ'' τ : Store}

theorem growsSame (same : σ'.cells = σ.cells) : Grows σ σ' where
  longer := Nat.le_of_eq (by rw [same])
  keeps _ _ := by rw [definition?, definition?, same]
  fills _ old new := absurd (same ▸ new) (Nat.not_lt_of_le old)

theorem growsTrans (first : Grows σ σ') (second : Grows σ' σ'') : Grows σ σ'' where
  longer := Nat.le_trans first.longer second.longer
  keeps cell old := (second.keeps cell (Nat.lt_of_lt_of_le old first.longer)).trans
    (first.keeps cell old)
  fills cell old new := by
    by_cases between : cell < σ'.cells.length
    · rw [second.keeps cell between]
      exact first.fills cell old between
    · exact second.fills cell (Nat.le_of_not_lt between) new

theorem sharesFirst (later : Grows σ' σ'') (shares : Shares τ σ σ'') : Shares τ σ σ' :=
  fun cell old new => (shares cell old (Nat.lt_of_lt_of_le new later.longer)).trans
    (later.keeps cell new)

theorem sharesSecond (before : Grows σ σ') (shares : Shares τ σ σ'') : Shares τ σ' σ'' :=
  fun cell old new => shares cell (Nat.le_trans before.longer old) new

theorem sharesOwn (σ σ' : Store) : Shares σ' σ σ' := fun _ _ _ => rfl

theorem allocateLength (σ : Store) : σ.allocate.2.cells.length = σ.cells.length + 1 := by
  simp [allocate]

theorem defineLength (σ : Store) (cell : Nat) (rule : Rule) :
    (σ.define cell rule).cells.length = σ.cells.length := by
  simp [define]

theorem filledShares {names : List String} {first : Nat} {rules : List Rule}
    (filled : σ.Filled (numbered names first) rules)
    (shares : ∀ cell, first ≤ cell → cell < first + names.length →
      τ.definition? cell = σ.definition? cell) : τ.Filled (numbered names first) rules := by
  induction names generalizing first rules with
  | nil =>
    cases filled
    exact .nil
  | cons name names ih =>
    cases filled with
    | cons own others =>
      simp only [List.length_cons] at shares
      refine .cons ((shares first (Nat.le_refl _) (by omega)).trans own) (ih others ?_)
      exact fun cell old new => shares cell (by omega) (by omega)

theorem filledSome {names : List String} {first : Nat} {rules : List Rule}
    (filled : σ.Filled (numbered names first) rules) {cell : Nat} (old : first ≤ cell)
    (new : cell < first + names.length) : ∃ rule ∈ rules, σ.definition? cell = some rule := by
  induction names generalizing first rules with
  | nil => exact absurd new (Nat.not_lt_of_le old)
  | cons name names ih =>
    cases filled with
    | cons own others =>
      by_cases here : cell = first
      · exact ⟨_, List.mem_cons_self, here ▸ own⟩
      · simp only [List.length_cons] at new
        obtain ⟨rule, inside, defined⟩ := ih others (by omega) (by omega)
        exact ⟨rule, List.mem_cons_of_mem _ inside, defined⟩

theorem growsAround {full : Store} {names : List String} {rules : List Rule}
    (opens : σ'.cells = σ.cells ++ List.replicate names.length none) (grows : Grows σ' σ'')
    (length : full.cells.length = σ''.cells.length)
    (keeps : ∀ cell, cell < σ.cells.length ∨ σ.cells.length + names.length ≤ cell →
      full.definition? cell = σ''.definition? cell)
    (filled : full.Filled (numbered names σ.cells.length) rules) :
    Grows σ full ∧ ∀ τ, Shares τ σ full →
      τ.Filled (numbered names σ.cells.length) rules ∧ Shares τ σ' σ'' := by
  have longer := grows.longer
  have size : σ'.cells.length = σ.cells.length + names.length := by simp [opens]
  refine ⟨⟨by omega, fun cell old => ?_, fun cell old new => ?_⟩, fun τ shares => ⟨?_, ?_⟩⟩
  · rw [keeps cell (.inl old), grows.keeps cell (by omega), definition?, definition?, opens,
      List.getElem?_append_left old]
  · by_cases named : cell < σ.cells.length + names.length
    · obtain ⟨rule, -, defined⟩ := filledSome filled old named
      exact Option.isSome_of_eq_some defined
    · rw [keeps cell (.inr (by omega))]
      exact grows.fills cell (by omega) (by omega)
  · exact filledShares filled fun cell old new => shares cell old (by omega)
  · intro cell old new
    rw [shares cell (by omega) (by omega), keeps cell (.inr (by omega))]

end Store

namespace Assembly
open Store (Grows Shares growsSame growsTrans sharesFirst sharesSecond)

variable {α β : Type}

def Lays (layout : Store → Nat → α → Nat → Prop) (work : Assembly α) : Prop :=
  ∀ b, Grows b.store (work b).2.store ∧ ∀ τ, Shares τ b.store (work b).2.store →
    layout τ b.store.cells.length (work b).1 (work b).2.store.cells.length

theorem laysPure {layout : Store → Nat → α → Nat → Prop} {a : α} (holds : ∀ τ i, layout τ i a i) :
    Lays layout (pure a : Assembly α) := fun _ => ⟨growsSame rfl, fun τ _ => holds τ _⟩

theorem laysBind {first : Store → Nat → α → Nat → Prop} {both : Store → Nat → β → Nat → Prop}
    {work : Assembly α} {next : α → Assembly β} (laysFirst : Lays first work)
    (second : α → Store → Nat → β → Nat → Prop) (laysSecond : ∀ a, Lays (second a) (next a))
    (join : ∀ τ i a j c k, first τ i a j → second a τ j c k → both τ i c k) :
    Lays both (work >>= next) := by
  intro b
  obtain ⟨grows, lays⟩ := laysFirst b
  obtain ⟨later, others⟩ := laysSecond (work b).1 (work b).2
  refine ⟨growsTrans grows later, fun τ shares => ?_⟩
  exact join τ _ _ _ _ _ (lays τ (sharesFirst later shares)) (others τ (sharesSecond grows shares))

theorem laysMap {first : Store → Nat → α → Nat → Prop} {both : Store → Nat → β → Nat → Prop}
    {work : Assembly α} {f : α → β} (lays : Lays first work)
    (join : ∀ τ i a j, first τ i a j → both τ i (f a) j) :
    Lays both (work >>= fun a => pure (f a)) := fun b =>
  ⟨(lays b).1, fun τ shares => join τ _ _ _ ((lays b).2 τ shares)⟩

theorem laysThree {one two three : Store → Nat → Rule → Nat → Prop} {x y z : Assembly Rule}
    (make : Rule → Rule → Rule → Rule) (first : Lays one x) (second : Lays two y)
    (third : Lays three z) :
    Lays (fun τ i rule l => ∃ a b c j k, rule = make a b c ∧ one τ i a j ∧ two τ j b k ∧ three τ k c l)
      (do return make (← x) (← y) (← z)) := by
  refine laysBind first (fun a τ i rule l => ∃ b c k, rule = make a b c ∧ two τ i b k ∧ three τ k c l)
    (fun a => laysBind second (fun b τ i rule l => ∃ c, rule = make a b c ∧ three τ i c l)
      (fun _ => laysMap third fun _ _ c _ lays => ⟨c, rfl, lays⟩) ?_) ?_
  · intro τ i b j rule l lays later
    obtain ⟨c, same, last⟩ := later
    exact ⟨b, c, j, same, lays, last⟩
  · intro τ i a j rule l lays later
    obtain ⟨b, c, k, same, middle, last⟩ := later
    exact ⟨a, b, c, j, k, same, lays, middle, last⟩

theorem laysLookup (scope : Scope) (name : String) :
    Lays (fun _ i rule j => scope.Gives name rule ∧ j = i) (lookup scope name) := by
  cases found : Table.find? name scope with
  | none =>
    simp only [lookup, Scope.Gives, found]
    exact laysPure fun _ _ => ⟨rfl, rfl⟩
  | some meaning =>
    cases meaning with
    | rule r =>
      simp only [lookup, Scope.Gives, found]
      exact laysPure fun _ _ => ⟨rfl, rfl⟩
    | cell c =>
      simp only [lookup, Scope.Gives, found]
      exact fun _ => ⟨growsSame rfl, fun _ _ => ⟨⟨_, rfl⟩, rfl⟩⟩

theorem allocateStore (b : Blueprint) : (allocate b).2.store = b.store.allocate.2 := rfl

theorem defineStore (alive : List Rule) (cell : Nat) (rule : Rule) (b : Blueprint) :
    (define alive cell rule b).2.store = b.store.define cell rule := rfl

theorem allocateAllEq (names : List String) (b : Blueprint) : allocateAll names b =
    (numbered names b.store.cells.length,
      {b with store := {b.store with cells := b.store.cells ++ List.replicate names.length none}}) := by
  induction names generalizing b with
  | nil =>
    change (([] : List (String × Nat)), b) = _
    simp [numbered]
  | cons name names ih =>
    have unfolds : allocateAll (name :: names) b =
        ((name, b.store.cells.length) :: (allocateAll names (allocate b).2).1,
          (allocateAll names (allocate b).2).2) := rfl
    rw [unfolds, ih]
    simp [allocate, Store.allocate, numbered, List.replicate_succ]

theorem defineAllFills (alive : List Rule) {names : List String} {rules : List Rule}
    (paired : rules.length = names.length) {first : Nat} {b : Blueprint}
    (made : first + names.length ≤ b.store.cells.length) :
    let out := defineAll alive (numbered names first) rules b
    out.1 = (numbered names first).map (fun d => (d.1, .rule (.refer (.owner d.2)))) ∧
    out.2.store.cells.length = b.store.cells.length ∧
    (∀ cell, cell < first ∨ first + names.length ≤ cell →
      out.2.store.definition? cell = b.store.definition? cell) ∧
    out.2.store.Filled (numbered names first) rules := by
  induction names generalizing first rules b with
  | nil =>
    cases List.length_eq_zero_iff.mp paired
    exact ⟨rfl, rfl, fun _ _ => rfl, .nil⟩
  | cons name names ih =>
    cases rules with
    | nil => simp at paired
    | cons rule rules =>
      simp only [List.length_cons] at made paired
      have own : first < b.store.cells.length := by omega
      have tails : rules.length = names.length := by omega
      have room : first + 1 + names.length ≤ (define alive first rule b).2.store.cells.length := by
        rw [defineStore, Store.defineLength]
        omega
      obtain ⟨finished, length, keeps, filled⟩ := ih tails room
      rw [defineStore, Store.defineLength] at length
      refine ⟨congrArg (_ :: ·) finished, length, fun cell apart => ?_, .cons ?_ filled⟩
      · simp only [List.length_cons] at apart
        refine (keeps cell (by omega)).trans ?_
        rw [defineStore, Store.definitionDefine _ own, if_neg (by omega)]
      · refine (keeps first (by omega)).trans ?_
        rw [defineStore, Store.definitionDefine _ own, if_pos rfl]

theorem laysRecursive {layout : Nat → Store → Nat → Rule → Nat → Prop} {work : Nat → Assembly Rule}
    (lays : ∀ cell, Lays (layout cell) (work cell)) :
    Lays (fun τ i rule k => rule = .refer (.owner i) ∧
        ∃ inner, τ.definition? i = some inner ∧ layout i τ (i + 1) inner k)
      (do let cell ← allocate; let rule ← work cell; define [] cell rule) := by
  intro b
  obtain ⟨grows, inside⟩ := lays b.store.cells.length (allocate b).2
  have size := b.store.allocateLength
  have longer := grows.longer
  rw [allocateStore, size] at longer
  have defines := (work b.store.cells.length (allocate b).2).2.store.definitionDefine longer
    (work b.store.cells.length (allocate b).2).1
  have filled : ((work b.store.cells.length (allocate b).2).2.store.define b.store.cells.length
      (work b.store.cells.length (allocate b).2).1).Filled (numbered [""] b.store.cells.length)
      [(work b.store.cells.length (allocate b).2).1] := .cons (by rw [defines, if_pos rfl]) .nil
  obtain ⟨whole, parts⟩ := Store.growsAround rfl grows (Store.defineLength ..)
    (fun cell apart => by rw [defines, if_neg (by simp at apart; omega)]) filled
  refine ⟨whole, fun τ shares => ?_⟩
  obtain ⟨filled, inner⟩ := parts τ shares
  have laid := inside τ inner
  rw [allocateStore, size] at laid
  cases filled with
  | cons own _ => exact ⟨rfl, _, own, (Store.defineLength ..).symm ▸ laid⟩

theorem laysTogether {names : List String}
    {inner : List (String × Nat) → Store → Nat → List Rule → Nat → Prop}
    {outer : List (String × Nat) → Store → Nat → Rule → Nat → Prop}
    {definitions : List (String × Nat) → Assembly (List Rule)} (body : Scope → Assembly Rule)
    (laysInner : ∀ cells, Lays (inner cells) (definitions cells))
    (paired : ∀ cells τ i rules j, inner cells τ i rules j → rules.length = names.length)
    (laysOuter : ∀ cells, Lays (outer cells)
      (body (cells.map fun d => (d.1, .rule (.refer (.owner d.2)))))) :
    Lays (fun τ i rule k => ∃ rules j, τ.Filled (numbered names i) rules ∧
        inner (numbered names i) τ (i + names.length) rules j ∧ outer (numbered names i) τ j rule k)
      (do
        let cells ← allocateAll names
        let rules ← definitions cells
        let finished ← defineAll rules cells rules
        body finished) := by
  intro b
  let cells := numbered names b.store.cells.length
  let opened := (allocateAll names b).2
  have opens : opened.store.cells = b.store.cells ++ List.replicate names.length none := by
    simp only [opened, allocateAllEq]
  have made : (allocateAll names b).1 = cells := by rw [allocateAllEq]
  have size : opened.store.cells.length = b.store.cells.length + names.length := by simp [opens]
  obtain ⟨grows, inside⟩ := laysInner cells opened
  let laid := definitions cells opened
  have longer : opened.store.cells.length ≤ laid.2.store.cells.length := grows.longer
  have pairs : laid.1.length = names.length := paired _ _ _ _ _ (inside _ (Store.sharesOwn _ _))
  have room : b.store.cells.length + names.length ≤ laid.2.store.cells.length := by omega
  obtain ⟨finished, length, keeps, filled⟩ := defineAllFills laid.1 pairs room
  let defined := defineAll laid.1 cells laid.1 laid.2
  obtain ⟨whole, parts⟩ := Store.growsAround opens grows length keeps filled
  obtain ⟨later, outside⟩ := laysOuter cells defined.2
  have unfolds : (do
      let cells ← allocateAll names
      let rules ← definitions cells
      let finished ← defineAll rules cells rules
      body finished : Assembly Rule) b =
        body (cells.map fun d => (d.1, .rule (.refer (.owner d.2)))) defined.2 := by
    rw [← finished]
    change (do
      let rules ← definitions (allocateAll names b).1
      let finished ← defineAll rules (allocateAll names b).1 rules
      body finished : Assembly Rule) opened = _
    rw [made]
    rfl
  rw [unfolds]
  refine ⟨growsTrans whole later, fun τ shares => ?_⟩
  obtain ⟨own, behind⟩ := parts τ (sharesFirst later shares)
  have first := inside τ behind
  have second := outside τ (sharesSecond whole shares)
  rw [size] at first
  rw [length] at second
  exact ⟨laid.1, _, own, first, second⟩

end Assembly

namespace Grammar
open Assembly (Lays laysPure laysBind laysMap laysThree)
open Store (Layout LayoutAll LayoutDefinitions)

theorem definitionsPaired {τ : Store} {scope : Scope} {gs : List (String × Grammar)} {i j : Nat}
    {rules : List Rule} (lays : τ.LayoutDefinitions scope gs i rules j) :
    rules.length = (gs.map Prod.fst).length := by
  induction gs generalizing i rules with
  | nil =>
    obtain ⟨rfl, -⟩ := lays
    rfl
  | cons d gs ih =>
    obtain ⟨rule, others, k, rfl, -, rest⟩ := lays
    simp [ih rest]

mutual

theorem assembleLays : ∀ (g : Grammar) (scope : Scope),
    Lays (fun τ i rule j => τ.Layout scope g i rule j) (g.assemble scope)
  | .leaf _, _ => laysPure fun _ _ => ⟨rfl, rfl⟩
  | .wrap _ body, scope => laysMap (assembleLays body scope) fun _ _ a _ lays => ⟨a, rfl, lays⟩
  | .choice members, scope =>
    laysMap (assembleAllLays members scope) fun _ _ a _ lays => ⟨a, rfl, lays⟩
  | .sequence members, scope =>
    laysMap (assembleAllLays members scope) fun _ _ a _ lays => ⟨a, rfl, lays⟩
  | .choiceOf n member last, scope => by
    refine laysBind (assembleLays member scope)
      (fun a τ i rule j => ∃ b, rule = .choiceOf n a b ∧ τ.Layout scope last i b j)
      (fun _ => laysMap (assembleLays last scope) fun _ _ b _ lays => ⟨b, rfl, lays⟩) ?_
    intro τ i a j rule k first second
    obtain ⟨b, same, lays⟩ := second
    exact ⟨a, b, j, same, first, lays⟩
  | .between left middle right, scope =>
    laysThree .between (assembleLays left scope) (assembleLays middle scope) (assembleLays right scope)
  | .block start terminator escape, scope =>
    laysThree .block (assembleLays start scope) (assembleLays terminator scope)
      (assembleLays escape scope)
  | .ref name, scope => Assembly.laysLookup scope name
  | .recursive name body, scope => Assembly.laysRecursive fun _ => assembleLays body _
  | .together definitions body, scope => by
    have lays := Assembly.laysTogether (fun finished => body.assemble (finished.reverse ++ scope))
      (fun cells => assembleDefinitionsLays definitions (scope.opened cells))
      (fun cells τ i rules j laid => definitionsPaired laid)
      (fun cells => by
        have outside := assembleLays body (scope.closed cells)
        simpa only [Scope.closed] using outside)
    intro b
    refine ⟨(lays b).1, fun τ shares => ?_⟩
    have laid := (lays b).2 τ shares
    rw [List.length_map] at laid
    exact laid

theorem assembleAllLays : ∀ (gs : List Grammar) (scope : Scope),
    Lays (fun τ i rules j => τ.LayoutAll scope gs i rules j) (assembleAll scope gs)
  | [], _ => laysPure fun _ _ => ⟨rfl, rfl⟩
  | g :: gs, scope => by
    refine laysBind (assembleLays g scope)
      (fun a τ i rules j => ∃ others, rules = a :: others ∧ τ.LayoutAll scope gs i others j)
      (fun _ => laysMap (assembleAllLays gs scope) fun _ _ b _ lays => ⟨b, rfl, lays⟩) ?_
    intro τ i a j rules k first second
    obtain ⟨others, same, lays⟩ := second
    exact ⟨a, others, j, same, first, lays⟩

theorem assembleDefinitionsLays : ∀ (gs : List (String × Grammar)) (scope : Scope),
    Lays (fun τ i rules j => τ.LayoutDefinitions scope gs i rules j) (assembleDefinitions scope gs)
  | [], _ => laysPure fun _ _ => ⟨rfl, rfl⟩
  | (_, g) :: gs, scope => by
    refine laysBind (assembleLays g scope)
      (fun a τ i rules j => ∃ others, rules = a :: others ∧ τ.LayoutDefinitions scope gs i others j)
      (fun _ => laysMap (assembleDefinitionsLays gs scope) fun _ _ b _ lays => ⟨b, rfl, lays⟩) ?_
    intro τ i a j rules k first second
    obtain ⟨others, same, lays⟩ := second
    exact ⟨a, others, j, same, first, lays⟩

end

mutual

def cells : Grammar → Nat
  | .leaf _ => 0
  | .wrap _ body => cells body
  | .choice members => cellsOfAll members
  | .sequence members => cellsOfAll members
  | .choiceOf _ member last => cells member + cells last
  | .between left middle right => cells left + cells middle + cells right
  | .block start terminator escape => cells start + cells terminator + cells escape
  | .ref _ => 0
  | .recursive _ body => cells body + 1
  | .together definitions body => definitions.length + cellsOfDefinitions definitions + cells body

def cellsOfAll : List Grammar → Nat
  | [] => 0
  | g :: gs => cells g + cellsOfAll gs

def cellsOfDefinitions : List (String × Grammar) → Nat
  | [] => 0
  | (_, g) :: gs => cells g + cellsOfDefinitions gs

end

mutual

theorem layoutCells {τ : Store} : ∀ (g : Grammar) {scope : Scope} {i j : Nat} {rule : Rule},
    τ.Layout scope g i rule j → j = i + g.cells
  | .leaf _, _, _, _, _, lays => lays.2
  | .wrap _ body, _, _, _, _, lays => by
    obtain ⟨_, -, inner⟩ := lays
    exact layoutCells body inner
  | .choice members, _, _, _, _, lays => by
    obtain ⟨_, -, inner⟩ := lays
    exact layoutAllCells members inner
  | .sequence members, _, _, _, _, lays => by
    obtain ⟨_, -, inner⟩ := lays
    exact layoutAllCells members inner
  | .choiceOf _ member last, _, _, _, _, lays => by
    obtain ⟨_, _, _, -, first, second⟩ := lays
    rw [layoutCells last second, layoutCells member first, cells, Nat.add_assoc]
  | .between left middle right, _, _, _, _, lays => by
    obtain ⟨_, _, _, _, _, -, first, second, third⟩ := lays
    rw [layoutCells right third, layoutCells middle second, layoutCells left first, cells]
    omega
  | .block start terminator escape, _, _, _, _, lays => by
    obtain ⟨_, _, _, _, _, -, first, second, third⟩ := lays
    rw [layoutCells escape third, layoutCells terminator second, layoutCells start first, cells]
    omega
  | .ref _, _, _, _, _, lays => lays.2
  | .recursive _ body, _, _, _, _, lays => by
    obtain ⟨-, _, -, inner⟩ := lays
    rw [layoutCells body inner, cells]
    omega
  | .together definitions body, _, _, _, _, lays => by
    obtain ⟨_, _, -, inner, outer⟩ := lays
    rw [layoutCells body outer, layoutDefinitionsCells definitions inner, cells]
    omega

theorem layoutAllCells {τ : Store} : ∀ (gs : List Grammar) {scope : Scope} {i j : Nat}
    {rules : List Rule}, τ.LayoutAll scope gs i rules j → j = i + cellsOfAll gs
  | [], _, _, _, _, lays => lays.2
  | g :: gs, _, _, _, _, lays => by
    obtain ⟨_, _, _, -, first, others⟩ := lays
    rw [layoutAllCells gs others, layoutCells g first, cellsOfAll, Nat.add_assoc]

theorem layoutDefinitionsCells {τ : Store} : ∀ (gs : List (String × Grammar)) {scope : Scope}
    {i j : Nat} {rules : List Rule},
    τ.LayoutDefinitions scope gs i rules j → j = i + cellsOfDefinitions gs
  | [], _, _, _, _, lays => lays.2
  | (_, g) :: gs, _, _, _, _, lays => by
    obtain ⟨_, _, _, -, first, others⟩ := lays
    rw [layoutDefinitionsCells gs others, layoutCells g first, cellsOfDefinitions, Nat.add_assoc]

end

theorem assembledLays (g : Grammar) :
    g.assembled.store.Layout [] g 0 g.assembled.rule g.assembled.store.cells.length :=
  (assembleLays g [] ⟨Store.empty, []⟩).2 _ (Store.sharesOwn _ _)

theorem assembledCells (g : Grammar) : g.assembled.store.cells.length = g.cells := by
  rw [layoutCells g (assembledLays g), Nat.zero_add]

end Grammar
end Descent
