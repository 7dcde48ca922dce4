import Descent.Proofs.Depth
import Descent.Proofs.Layout
import Descent.Proofs.Lookup
/-!
What a grammar means, without cells. A name stands for a grammar together with the names that this
grammar may use, and to refer to a name is to go one deeper into what it stands for. A grammar that is
assembled and run does just this, whatever cells it has: a handle that owns its cell and one that does
not mean the same, because all cells of a grammar are filled and alive while it is run.
-/
namespace Descent

inductive Closure where
  | mk (definitions : List (String × Grammar)) (body : Grammar) (outer : List (String × Closure))

abbrev Environment := List (String × Closure)

def Environment.defining (definitions : List (String × Grammar)) (outer : Environment) :
    Environment :=
  (definitions.map fun d => (d.1, .mk definitions d.2 outer)).reverse ++ outer

namespace Grammar

mutual

def meaning (call : Closure → Parser Value) (env : Environment) : Grammar → Parser Value
  | .leaf l => l.parser
  | .wrap w body => w.parser (meaning call env body)
  | .choice members => Parser.choice (meanings call env members)
  | .sequence members => Parser.sequence (meanings call env members)
  | .choiceOf n member last =>
    Parser.choice (List.replicate n (meaning call env member) ++ [meaning call env last])
  | .between left middle right =>
    Parser.between (meaning call env left) (meaning call env middle) (meaning call env right)
  | .block start terminator escape =>
    Parser.block .char (meaning call env start) (meaning call env terminator)
      (meaning call env escape)
  | .ref name => (Table.find? name env).elim Parser.fail call
  | .recursive name body => call (.mk [(name, body)] body env)
  | .together definitions body => meaning call (Environment.defining definitions env) body

def meanings (call : Closure → Parser Value) (env : Environment) :
    List Grammar → List (Parser Value)
  | [] => []
  | g :: gs => meaning call env g :: meanings call env gs

end

end Grammar

def Closure.run : Nat → Closure → Parser Value
  | 0, _ => fun _ => Run.stop .exhausted
  | depth + 1, .mk definitions body outer =>
    body.meaning (run depth) (Environment.defining definitions outer)

namespace Environment

theorem definitionFound (definitions : List (String × Grammar)) (name : String) :
    (∃ d ∈ definitions, d.1 = name ∧ ∀ (call : String → String) (made : String × Grammar → Closure)
      (rest : Environment), call.Injective → Table.find? (call name)
        ((definitions.map fun d => (call d.1, made d)).reverse ++ rest) = some (made d)) ∨
    name ∉ definitions.map Prod.fst := by
  induction definitions using List.reverseRecOn with
  | nil => exact .inr List.not_mem_nil
  | append_singleton definitions d ih =>
    by_cases same : d.1 = name
    · refine .inl ⟨d, by simp, same, fun call made rest _ => ?_⟩
      simp [Table.find?, same]
    · rcases ih with ⟨other, inside, own, found⟩ | apart
      · refine .inl ⟨other, List.mem_append_left _ inside, own, fun call made rest injective => ?_⟩
        have different : ¬ call name = call d.1 := fun equal => same (injective equal).symm
        simpa [Table.find?, different] using found call made rest injective
      · exact .inr (by simpa using ⟨by simpa using apart, fun equal => same equal.symm⟩)

theorem definingFinds (definitions : List (String × Grammar)) (env : Environment) (name : String) :
    (∃ d ∈ definitions, d.1 = name ∧
      Table.find? name (defining definitions env) = some (.mk definitions d.2 env)) ∨
    name ∉ definitions.map Prod.fst ∧
      Table.find? name (defining definitions env) = Table.find? name env := by
  rcases definitionFound definitions name with ⟨d, inside, same, found⟩ | apart
  · exact .inl ⟨d, inside, same, found id _ env Function.injective_id⟩
  · exact .inr ⟨apart, Table.findPast (by simpa using apart) env⟩

theorem definingElsewhere {definitions : List (String × Grammar)} {env : Environment} {name : String}
    (apart : name ∉ definitions.map Prod.fst) (call : Closure → Parser Value) :
    (Grammar.ref name).meaning call (defining definitions env) =
      (Grammar.ref name).meaning call env := by
  rw [Grammar.meaning, Grammar.meaning, defining, Table.findPast (by simpa using apart)]

end Environment

namespace Store

variable {σ : Store} {live : List Nat}

def Alive (σ : Store) (live : List Nat) (rule : Rule) : Prop :=
  ∀ cell ∈ rule.owns, cell < σ.cells.length → cell ∈ live

def Closed (σ : Store) (live : List Nat) : Prop :=
  ∀ cell ∈ live, ∀ rule, σ.definition? cell = some rule → σ.Alive live rule

theorem ownedAlive {rules : List Rule} {rule : Rule} (held : rule ∈ rules) :
    σ.Alive (σ.owned rules) rule := fun _ owns made => σ.heldOwned held owns made

theorem closedOwned (rules : List Rule) : σ.Closed (σ.owned rules) :=
  fun _ alive rule defined _ owns made =>
    σ.ownedClosed alive (σ.ownsIff.mpr ⟨rule, defined, owns⟩) made

def Denotes (σ : Store) (live : List Nat) (depth : Nat) (scope : Scope) (env : Environment) : Prop :=
  ∀ name rule, scope.Gives name rule → σ.Alive live rule → ∀ d ≤ depth,
    rule.parser (σ.invoke live d) = (Grammar.ref name).meaning (Closure.run d) env

theorem denotesLess {depth less : Nat} {scope : Scope} {env : Environment} (shallow : less ≤ depth)
    (denotes : σ.Denotes live depth scope env) : σ.Denotes live less scope env :=
  fun name rule gives alive d within => denotes name rule gives alive d (Nat.le_trans within shallow)

def Stands (σ : Store) (live : List Nat) (depth : Nat) (m : Meaning) (c : Closure) : Prop :=
  ∀ rule, m.Gives rule → σ.Alive live rule → ∀ d ≤ depth, rule.parser (σ.invoke live d) = c.run d

theorem denotesBefore {depth : Nat} {scope entries : Scope} {env closures : Environment}
    (denotes : σ.Denotes live depth scope env)
    (paired : List.Forall₂ (fun entry closure => entry.1 = closure.1 ∧
      σ.Stands live depth entry.2 closure.2) entries closures) :
    σ.Denotes live depth (entries ++ scope) (closures ++ env) := by
  intro name rule gives alive d within
  unfold Scope.Gives at gives
  rw [Grammar.meaning]
  rcases Table.findBefore (σ.Stands live depth) paired scope env name with
    ⟨meaning, closure, stands, found, known⟩ | ⟨passed, passed'⟩
  · rw [found] at gives
    rw [known]
    exact stands rule gives alive d within
  · rw [passed] at gives
    rw [passed']
    exact denotes name rule gives alive d within

def Answers (σ : Store) (live : List Nat) (depth cell : Nat) (c : Closure) : Prop :=
  cell ∈ live → ∀ r : Reference, r.cell = cell → ∀ d ≤ depth, σ.invoke live d r = c.run d

def Leads (σ : Store) (live : List Nat) (m : Meaning) (cell : Nat) : Prop :=
  ∀ rule, m.Gives rule → σ.Alive live rule →
    cell ∈ live ∧ ∃ r : Reference, rule = .refer r ∧ r.cell = cell

theorem leadsHandle {cell : Nat} (made : cell < σ.cells.length) : σ.Leads live (.cell cell) cell := by
  rintro _ ⟨tag, rfl⟩ alive
  exact ⟨alive cell List.mem_cons_self made, _, rfl, rfl⟩

theorem leadsOwner {cell : Nat} (made : cell < σ.cells.length) :
    σ.Leads live (.rule (.refer (.owner cell))) cell := by
  rintro _ rfl alive
  exact ⟨alive cell List.mem_cons_self made, _, rfl, rfl⟩

theorem leadsWeak {cell : Nat} (alive : cell ∈ live) :
    σ.Leads live (.rule (.refer (.weak cell))) cell := by
  rintro _ rfl _
  exact ⟨alive, _, rfl, rfl⟩

theorem standsOf {depth cell : Nat} {m : Meaning} {c : Closure} (leads : σ.Leads live m cell)
    (answers : σ.Answers live depth cell c) : σ.Stands live depth m c := by
  intro rule gives alive d within
  obtain ⟨lives, r, rfl, same⟩ := leads rule gives alive
  exact answers lives r same d within

theorem resolveAlive {r : Reference} {rule : Rule} (alive : r.cell ∈ live)
    (defined : σ.definition? r.cell = some rule) : σ.resolve live r = .ok rule := by
  cases r <;> simp_all [resolve, Reference.cell]

/-- Wherever the definitions' names denote what they should, the rule does what the grammar means. -/
def Realizes (σ : Store) (live : List Nat) (scope : Scope) (g : Grammar) (rule : Rule) : Prop :=
  ∀ depth env, σ.Denotes live depth scope env → σ.Alive live rule →
    rule.parser (σ.invoke live depth) = g.meaning (Closure.run depth) env

def Group (σ : Store) (live : List Nat) (scope : Scope) (uses : Nat → Meaning)
    (cells : List (String × Nat)) (definitions : List (String × Grammar)) : Prop :=
  List.Forall₂ (fun cell d => cell.1 = d.1 ∧ ∃ rule, σ.definition? cell.2 = some rule ∧
    σ.Realizes live ((cells.map fun e => (e.1, uses e.2)).reverse ++ scope) d.2 rule) cells definitions

variable {scope : Scope} {cells : List (String × Nat)}
  {definitions : List (String × Grammar)} {env : Environment}

theorem denotesCells {depth : Nat} (uses : Nat → Meaning) (denotes : σ.Denotes live depth scope env)
    (leads : ∀ cell ∈ cells, σ.Leads live (uses cell.2) cell.2)
    (answers : List.Forall₂ (fun cell d => cell.1 = d.1 ∧
      σ.Answers live depth cell.2 (.mk definitions d.2 env)) cells definitions) :
    σ.Denotes live depth ((cells.map fun e => (e.1, uses e.2)).reverse ++ scope)
      (Environment.defining definitions env) := by
  refine denotesBefore denotes (List.rel_reverse (List.forall₂_map_left_iff.mpr
    (List.forall₂_map_right_iff.mpr (List.forall₂_iff_zip.mpr ?_))))
  obtain ⟨length, pairs⟩ := List.forall₂_iff_zip.mp answers
  refine ⟨length, fun {cell d} inside => ⟨(pairs inside).1, ?_⟩⟩
  exact standsOf (leads cell (List.of_mem_zip inside).1) (pairs inside).2

theorem groupAnswers {depth : Nat} (uses : Nat → Meaning) (closed : σ.Closed live)
    (denotes : σ.Denotes live depth scope env)
    (leads : ∀ cell ∈ cells, σ.Leads live (uses cell.2) cell.2)
    (group : σ.Group live scope uses cells definitions) :
    List.Forall₂ (fun cell d => cell.1 = d.1 ∧
      σ.Answers live depth cell.2 (.mk definitions d.2 env)) cells definitions := by
  -- What a definition refers to is one deeper, where the names denote what they should.
  induction depth with
  | zero =>
    refine group.imp fun cell d holds => ⟨holds.1, fun _ r _ depth within => ?_⟩
    rw [Nat.le_zero.mp within]
    rfl
  | succ depth ih =>
    have shallow := denotesLess (Nat.le_succ depth) denotes
    have inner := ih shallow
    have names := denotesCells uses shallow leads inner
    refine List.forall₂_iff_zip.mpr ⟨group.length_eq, fun {cell d} inside => ?_⟩
    obtain ⟨same, rule, defined, realizes⟩ := (List.forall₂_iff_zip.mp group).2 inside
    refine ⟨same, fun alive r own d' within => ?_⟩
    rcases Nat.le_succ_iff.mp within with less | rfl
    · exact ((List.forall₂_iff_zip.mp inner).2 inside).2 alive r own d' less
    · rw [← own] at alive defined
      funext input
      rw [invoke, resolveAlive alive defined]
      dsimp only
      rw [realizes depth _ names (closed _ alive rule defined)]
      rfl

theorem filledMade {rules : List Rule} (filled : σ.Filled cells rules) :
    ∀ cell ∈ cells, cell.2 < σ.cells.length := by
  induction filled with
  | nil => exact List.forall_mem_nil _
  | cons defined _ ih => exact List.forall_mem_cons.mpr ⟨σ.definedMade defined, ih⟩

theorem filledGroup {first : Nat} {rules : List Rule} {realizes : Grammar → Rule → Prop}
    (filled : σ.Filled (numbered (definitions.map Prod.fst) first) rules)
    (realized : List.Forall₂ (fun d rule => realizes d.2 rule) definitions rules) :
    List.Forall₂ (fun cell d => cell.1 = d.1 ∧ ∃ rule, σ.definition? cell.2 = some rule ∧
      realizes d.2 rule) (numbered (definitions.map Prod.fst) first) definitions := by
  induction realized generalizing first with
  | nil => exact .nil
  | cons here _ ih =>
    cases filled with
    | cons defined others => exact .cons ⟨rfl, _, defined, here⟩ (ih others)

theorem aliveParts {part whole : Rule} (within : ∀ r ∈ part.references, r ∈ whole.references)
    (alive : σ.Alive live whole) : σ.Alive live part := by
  intro cell owns made
  obtain ⟨r, inside, owned⟩ := List.mem_filterMap.mp owns
  exact alive cell (List.mem_filterMap.mpr ⟨r, within r inside, owned⟩) made

end Store

theorem Wrapper.parserDrops {w : Wrapper} (drops : w.keeps = false) (p q : Parser Value) :
    w.parser p = w.parser q := by
  cases w with
  | times n =>
    cases n with
    | zero => rfl
    | succ n => simp [keeps] at drops
  | _ => simp [keeps] at drops

namespace Store

variable {σ : Store} {live : List Nat}

mutual

theorem layoutRealizes (closed : σ.Closed live) : ∀ (g : Grammar) {scope : Scope} {i j : Nat}
    {rule : Rule}, σ.Layout scope g i rule j → σ.Realizes live scope g rule
  | .leaf l, _, _, _, _, lays => by
    obtain ⟨rfl, -⟩ := lays
    exact fun _ _ _ _ => rfl
  | .wrap w body, _, _, _, _, lays => by
    obtain ⟨inner, rfl, laid⟩ := lays
    intro depth env denotes alive
    cases keeps : w.keeps with
    | false => exact w.parserDrops keeps _ _
    | true =>
      have inside : σ.Alive live inner := aliveParts (by simp [Rule.references, keeps]) alive
      exact congrArg w.parser (layoutRealizes closed body laid depth env denotes inside)
  | .choice members, _, _, _, _, lays => by
    obtain ⟨rules, rfl, laid⟩ := lays
    intro depth env denotes alive
    exact congrArg Parser.choice (layoutAllRealizes closed members laid depth env denotes alive)
  | .sequence members, _, _, _, _, lays => by
    obtain ⟨rules, rfl, laid⟩ := lays
    intro depth env denotes alive
    exact congrArg Parser.sequence (layoutAllRealizes closed members laid depth env denotes alive)
  | .choiceOf n member last, _, _, _, _, lays => by
    obtain ⟨a, b, k, rfl, first, second⟩ := lays
    intro depth env denotes alive
    have final := layoutRealizes closed last second depth env denotes
      (aliveParts (by simp_all [Rule.references]) alive)
    rw [Rule.parser, Grammar.meaning, final]
    cases n with
    | zero => rfl
    | succ n =>
      rw [layoutRealizes closed member first depth env denotes
        (aliveParts (by simp_all [Rule.references]) alive)]
  | .between left middle right, _, _, _, _, lays => by
    obtain ⟨a, b, c, k, l, rfl, first, second, third⟩ := lays
    intro depth env denotes alive
    rw [Rule.parser, Grammar.meaning,
      layoutRealizes closed left first depth env denotes
        (aliveParts (by simp_all [Rule.references]) alive),
      layoutRealizes closed middle second depth env denotes
        (aliveParts (by simp_all [Rule.references]) alive),
      layoutRealizes closed right third depth env denotes
        (aliveParts (by simp_all [Rule.references]) alive)]
  | .block start terminator escape, _, _, _, _, lays => by
    obtain ⟨a, b, c, k, l, rfl, first, second, third⟩ := lays
    intro depth env denotes alive
    rw [Rule.parser, Grammar.meaning,
      layoutRealizes closed start first depth env denotes
        (aliveParts (by simp_all [Rule.references]) alive),
      layoutRealizes closed terminator second depth env denotes
        (aliveParts (by simp_all [Rule.references]) alive),
      layoutRealizes closed escape third depth env denotes
        (aliveParts (by simp_all [Rule.references]) alive)]
  | .ref name, _, _, _, _, lays => fun depth env denotes alive =>
    denotes name _ lays.1 alive depth (Nat.le_refl depth)
  | .recursive name body, scope, i, j, rule, lays => by
    obtain ⟨rfl, inner, defined, laid⟩ := lays
    intro depth env denotes alive
    have lives := alive i List.mem_cons_self (σ.definedMade defined)
    have group : σ.Group live scope (fun c => .rule (.refer (.weak c))) [(name, i)] [(name, body)] :=
      .cons ⟨rfl, inner, defined, layoutRealizes closed body laid⟩ .nil
    cases groupAnswers _ closed denotes (List.forall_mem_singleton.mpr (leadsWeak lives)) group with
    | cons answers _ => exact answers.2 lives _ rfl depth (Nat.le_refl depth)
  | .together definitions body, scope, i, j, rule, lays => by
    obtain ⟨rules, k, filled, inner, outer⟩ := lays
    intro depth env denotes alive
    have made := filledMade filled
    have answers := groupAnswers .cell closed denotes (fun cell inside => leadsHandle (made cell inside))
      (filledGroup filled (layoutDefinitionsRealize closed definitions inner))
    have finished := denotesCells (fun c => .rule (.refer (.owner c))) denotes
      (fun cell inside => leadsOwner (made cell inside)) answers
    exact layoutRealizes closed body outer depth _ finished alive

theorem layoutAllRealizes (closed : σ.Closed live) : ∀ (gs : List Grammar) {scope : Scope} {i j : Nat}
    {rules : List Rule}, σ.LayoutAll scope gs i rules j → ∀ depth env,
      σ.Denotes live depth scope env → σ.Alive live (.choice rules) →
        Rule.parsers (σ.invoke live depth) rules = Grammar.meanings (Closure.run depth) env gs
  | [], _, _, _, _, lays => by
    obtain ⟨rfl, -⟩ := lays
    exact fun _ _ _ _ => rfl
  | g :: gs, _, _, _, _, lays => by
    obtain ⟨rule, others, k, rfl, first, rest⟩ := lays
    intro depth env denotes alive
    rw [Rule.parsers, Grammar.meanings,
      layoutRealizes closed g first depth env denotes
        (aliveParts (by simp_all [Rule.references, Rule.referencesOfAll]) alive),
      layoutAllRealizes closed gs rest depth env denotes
        (aliveParts (by simp_all [Rule.references, Rule.referencesOfAll]) alive)]

theorem layoutDefinitionsRealize (closed : σ.Closed live) : ∀ (gs : List (String × Grammar))
    {scope : Scope} {i j : Nat} {rules : List Rule}, σ.LayoutDefinitions scope gs i rules j →
      List.Forall₂ (fun d rule => σ.Realizes live scope d.2 rule) gs rules
  | [], _, _, _, _, lays => by
    obtain ⟨rfl, -⟩ := lays
    exact .nil
  | (_, g) :: gs, _, _, _, _, lays => by
    obtain ⟨rule, others, k, rfl, first, rest⟩ := lays
    exact .cons (layoutRealizes closed g first) (layoutDefinitionsRealize closed gs rest)

end

end Store

namespace Grammar

theorem assembledMeans (g : Grammar) (depth : Nat) :
    g.assembled.rule.parser (g.assembled.store.invoke
      (g.assembled.store.owned [g.assembled.rule]) depth) = g.meaning (Closure.run depth) [] := by
  refine Store.layoutRealizes (Store.closedOwned _) g g.assembledLays depth [] ?_
    (Store.ownedAlive List.mem_cons_self)
  rintro name rule rfl alive d within
  rfl

theorem parserMeans (g : Grammar) (input : Text) : g.parser input =
    g.meaning (Closure.run (g.cells * (input.length + 1) + 1)) [] input := by
  rw [parser, Assembled.parser, Store.parser, Store.depthBound, assembledCells, assembledMeans]

variable {g : Grammar} {input : Text} {depth : Nat}

theorem parserSettles (ends : g.Leaves Leaf.LeavesEnd)
    (settled : ¬ (g.meaning (Closure.run depth) [] input).Exhausted) :
    g.parser input = g.meaning (Closure.run depth) [] input := by
  have leaves := assembledLeaves ends trivial
  rw [← assembledMeans] at settled ⊢
  exact Store.depthSuffices leaves.2 leaves.1 settled

theorem parserDeeper (enough : g.cells * (input.length + 1) + 1 ≤ depth)
    (settled : ¬ (g.parser input).Exhausted) : g.assembled.rule.parser
      (g.assembled.store.invoke (g.assembled.store.owned [g.assembled.rule]) depth) input =
        g.parser input := by
  rw [← assembledCells] at enough
  exact Store.parserDeeper _ enough settled

end Grammar
end Descent
