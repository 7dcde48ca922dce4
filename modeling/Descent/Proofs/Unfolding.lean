import Descent.Proofs.Substitution
/-!
What a late-bound name is: the grammar that it refers to, with the name put in place of itself. A grammar
that refers to itself is its own body with the grammar in place of its name, names that are defined
together are their definitions with the finished parsers in place of the names, and it does not matter in
which order these are defined. The two sides differ only in how deep their references are open.
-/
namespace Descent

theorem Closure.runDeeper (depth : Nat) (c : Closure) : (c.run depth).Agrees (· = .exhausted)
    (fun _ => False) (fun _ => True) (c.run (depth + 1)) := by
  induction depth using Nat.strongRecOn generalizing c with
  | ind depth ih =>
    obtain ⟨definitions, body, outer⟩ := c
    cases depth with
    | zero => exact (Pace.below 1).start _ _
    | succ depth =>
      refine Grammar.keepsItself (p := Pace.below 1) body fun x _ d within => ?_
      unfold Pace.Keeps
      rw [Grammar.meaning, Grammar.meaning]
      cases Table.find? x (Environment.defining definitions outer) with
      | none => exact Parser.fail.agreesAnywhere
      | some c => exact ih d (Nat.lt_succ_of_le within) c

namespace Grammar

theorem meaningDeeper (g : Grammar) (depth : Nat) (env : Environment) :
    (Pace.below 1).Keeps depth g env g env := by
  refine keepsItself g fun x _ d _ => ?_
  unfold Pace.Keeps
  rw [meaning, meaning]
  cases Table.find? x env with
  | none => exact Parser.fail.agreesAnywhere
  | some c => exact c.runDeeper d

def Approaches (g : Grammar) (env : Environment) (g' : Grammar) (env' : Environment) : Prop :=
  ∀ depth, ∃ deep, (g.meaning (Closure.run depth) env).Agrees (· = .exhausted) (fun _ => False)
    (fun _ => True) (g'.meaning (Closure.run deep) env')

theorem approachesAnswer {g g' : Grammar} (ends' : g'.Leaves Leaf.LeavesEnd)
    (approaches : g.Approaches [] g' []) {input : Text} (settled : ¬ (g.parser input).Exhausted) :
    g.parser input = g'.parser input := by
  obtain ⟨deep, agrees⟩ := approaches (g.cells * (input.length + 1) + 1)
  rw [parserMeans] at settled ⊢
  have same := Run.exhaustedExcused (agrees input trivial) settled
  rw [same] at settled ⊢
  exact (parserSettles ends' settled).symm

theorem approachesAlike {g g' : Grammar} (ends : g.Leaves Leaf.LeavesEnd)
    (ends' : g'.Leaves Leaf.LeavesEnd) (forth : g.Approaches [] g' []) (back : g'.Approaches [] g [])
    (input : Text) : (g.parser input).Alike (g'.parser input) := by
  by_cases settled : (g.parser input).Exhausted
  · by_cases settled' : (g'.parser input).Exhausted
    · exact .inr ⟨settled, settled'⟩
    · exact .inl (approachesAnswer ends back settled').symm
  · exact .inl (approachesAnswer ends' forth settled)

theorem approachesNext {g g' : Grammar} {env env' : Environment}
    (next : ∀ depth, g.meaning (Closure.run (depth + 1)) env = g'.meaning (Closure.run depth) env') :
    g.Approaches env g' env' ∧ g'.Approaches env' g env := by
  refine ⟨fun depth => ⟨depth, ?_⟩, fun depth => ⟨depth + 1, ?_⟩⟩
  · rw [← next]
    exact meaningDeeper g depth env
  · rw [next]
    exact Parser.agreesAnywhere _

theorem approachesSame {g g' : Grammar} {env env' : Environment}
    (same : ∀ depth, g.meaning (Closure.run depth) env = g'.meaning (Closure.run depth) env') :
    g.Approaches env g' env' ∧ g'.Approaches env' g env :=
  ⟨fun depth => ⟨depth, same depth ▸ Parser.agreesAnywhere _⟩,
    fun depth => ⟨depth, same depth ▸ Parser.agreesAnywhere _⟩⟩

theorem recursiveUnfolds (name : String) (g : Grammar) (env : Environment) (depth : Nat) :
    (recursive name g).meaning (Closure.run (depth + 1)) env =
      (g.substitute (single name (.recursive name g))).meaning (Closure.run depth) env := by
  have inside : (recursive name g).meaning (Closure.run (depth + 1)) env =
      g.meaning (Closure.run depth) (Environment.defining [(name, g)] env) := rfl
  rw [inside]
  refine substituteMeans g fun x _ d _ => ?_
  unfold single
  split
  · rename_i same
    simp [same, meaning, Environment.defining, Table.find?]
  · rename_i different
    exact Environment.definingElsewhere (by simpa using different) _

def finished (definitions : List (String × Grammar)) (x : String) : Grammar :=
  if x ∈ definitions.map Prod.fst then .together definitions (.ref x) else .ref x

def unfolded (definitions : List (String × Grammar)) (x : String) : Grammar :=
  (Table.find? x definitions).elim (.ref x) (substitute (finished definitions))

variable {definitions : List (String × Grammar)}

theorem togetherFinishes (g : Grammar) (env : Environment) (depth : Nat) :
    (together definitions g).meaning (Closure.run depth) env =
      (g.substitute (finished definitions)).meaning (Closure.run depth) env := by
  refine substituteMeans g fun x _ d _ => ?_
  unfold finished
  split
  · rfl
  · rename_i outside
    exact Environment.definingElsewhere outside _

theorem nameUnfolds (distinct : (definitions.map Prod.fst).Nodup) {x : String}
    (named : x ∈ definitions.map Prod.fst) (env : Environment) (depth : Nat) :
    (ref x).meaning (Closure.run (depth + 1)) (Environment.defining definitions env) =
      (unfolded definitions x).meaning (Closure.run depth) env := by
  obtain ⟨d, inside, rfl, found⟩ := (Environment.definingFinds definitions env x).resolve_right
    fun outside => outside.1 named
  rw [meaning, found, unfolded, Table.findDistinct distinct inside, Option.elim_some, Option.elim_some,
    ← togetherFinishes]
  rfl

theorem unfoldedElsewhere {x : String} (outside : x ∉ definitions.map Prod.fst) :
    unfolded definitions x = .ref x := by
  rw [unfolded, Table.findNone outside, Option.elim_none]

theorem togetherUnfolds (distinct : (definitions.map Prod.fst).Nodup) (g : Grammar)
    (env : Environment) :
    (together definitions g).Approaches env (g.substitute (unfolded definitions)) env ∧
      (g.substitute (unfolded definitions)).Approaches env (together definitions g) env := by
  refine ⟨fun depth => ⟨depth, ?_⟩, fun depth => ⟨depth + 1, Parser.agreesFlip ?_⟩⟩
  · refine substituteKeeps (p := Pace.below 0) g (tiedStable fun x _ d _ => ?_)
    by_cases named : x ∈ definitions.map Prod.fst
    · cases d with
      | zero =>
        obtain ⟨d, -, -, found⟩ := (Environment.definingFinds definitions env x).resolve_right
          fun outside => outside.1 named
        rw [Pace.Keeps, meaning, found]
        exact fun _ _ => .inl ⟨_, rfl, rfl⟩
      | succ d =>
        rw [Pace.Keeps, show d + 1 + (Pace.below 0).ahead = d + 1 from rfl, nameUnfolds distinct named]
        exact meaningDeeper (unfolded definitions x) d env
    · rw [unfoldedElsewhere named, Pace.Keeps, Environment.definingElsewhere named]
      exact Parser.agreesAnywhere _
  · refine substituteKeeps (p := Pace.above 1) g (tiedStable fun x _ d _ => ?_)
    by_cases named : x ∈ definitions.map Prod.fst
    · rw [Pace.Keeps, show d + (Pace.above 1).ahead = d + 1 from rfl, nameUnfolds distinct named]
      exact Parser.agreesAnywhere _
    · rw [unfoldedElsewhere named, Pace.Keeps, Environment.definingElsewhere named]
      exact Parser.agreesFlip (meaningDeeper (ref x) d env)

theorem nameOrder {definitions' : List (String × Grammar)} (same : definitions'.Perm definitions)
    (distinct : (definitions.map Prod.fst).Nodup) (env : Environment) (depth : Nat) (x : String) :
    (ref x).meaning (Closure.run depth) (Environment.defining definitions env) =
      (ref x).meaning (Closure.run depth) (Environment.defining definitions' env) := by
  induction depth using Nat.strongRecOn generalizing x with
  | ind depth ih =>
    have names := same.map Prod.fst
    by_cases named : x ∈ definitions.map Prod.fst
    · obtain ⟨d, inside, rfl, found⟩ := (Environment.definingFinds definitions env x).resolve_right
        fun outside => outside.1 named
      obtain ⟨d', inside', key, found'⟩ := (Environment.definingFinds definitions' env d.1).resolve_right
        fun outside => outside.1 (names.mem_iff.mpr named)
      have own := Table.findDistinct distinct (same.mem_iff.mp inside')
      rw [key, Table.findDistinct distinct inside] at own
      rw [meaning, meaning, found, found', Option.elim_some, Option.elim_some, Option.some.inj own]
      cases depth with
      | zero => rfl
      | succ depth =>
        exact stable d'.2 depth _ _ fun y _ k within => ih k (Nat.lt_succ_of_le within) y
    · have outside : x ∉ definitions'.map Prod.fst := fun among => named (names.mem_iff.mp among)
      rw [Environment.definingElsewhere named, Environment.definingElsewhere outside]

theorem togetherOrder {definitions' : List (String × Grammar)} (same : definitions'.Perm definitions)
    (distinct : (definitions.map Prod.fst).Nodup) (g : Grammar) (env : Environment) (depth : Nat) :
    (together definitions g).meaning (Closure.run depth) env =
      (together definitions' g).meaning (Closure.run depth) env :=
  g.stable depth _ _ fun x _ d _ => nameOrder same distinct env d x

def parserAmong (outer : List (String × Grammar)) (g : Grammar) : Parser Value :=
  (together outer g).parser

theorem leavesOfDefinitionsIff {good : Leaf → Prop} {definitions : List (String × Grammar)} :
    LeavesOfDefinitions good definitions ↔ ∀ d ∈ definitions, d.2.Leaves good := by
  induction definitions with
  | nil => exact ⟨fun _ => List.forall_mem_nil _, fun _ => trivial⟩
  | cons d definitions ih => rw [LeavesOfDefinitions, ih, List.forall_mem_cons]

theorem finishedLeaves {good : Leaf → Prop} (own : LeavesOfDefinitions good definitions) (x : String) :
    (finished definitions x).Leaves good := by
  unfold finished
  split
  · exact ⟨own, trivial⟩
  · trivial

theorem unfoldedLeaves {good : Leaf → Prop} (own : LeavesOfDefinitions good definitions) (x : String) :
    (unfolded definitions x).Leaves good := by
  unfold unfolded
  cases found : Table.find? x definitions with
  | none => trivial
  | some g =>
    have leaves := leavesOfDefinitionsIff.mp own _ (Table.memOfFind found)
    exact substituteLeaves g leaves (finishedLeaves own)

variable {outer definitions' : List (String × Grammar)} {g h body : Grammar}

theorem approachesAmong (outerEnds : LeavesOfDefinitions Leaf.LeavesEnd outer)
    (ends : g.Leaves Leaf.LeavesEnd) (ends' : h.Leaves Leaf.LeavesEnd)
    (both : g.Approaches (Environment.defining outer []) h (Environment.defining outer []) ∧
      h.Approaches (Environment.defining outer []) g (Environment.defining outer [])) (input : Text) :
    (g.parserAmong outer input).Alike (h.parserAmong outer input) :=
  have leaves : (together outer g).Leaves Leaf.LeavesEnd := ⟨outerEnds, ends⟩
  have leaves' : (together outer h).Leaves Leaf.LeavesEnd := ⟨outerEnds, ends'⟩
  approachesAlike leaves leaves' both.1 both.2 input

/-- Whatever is defined around them, and on every text: a grammar that refers to itself is run as its
body with the grammar in place of its name; where names are defined together, each of them may be
replaced by its finished parser, and just as well by its own definition in which the names are replaced by
their finished parsers; and the order of the definitions does not matter. Runs that never end excepted,
the two are the same in what is left and produced, in what they report and in how they stop. -/
theorem lateBindingUnfolds (outerEnds : LeavesOfDefinitions Leaf.LeavesEnd outer)
    (ends : g.Leaves Leaf.LeavesEnd) (definedEnds : LeavesOfDefinitions Leaf.LeavesEnd definitions)
    (bodyEnds : body.Leaves Leaf.LeavesEnd) (distinct : (definitions.map Prod.fst).Nodup)
    (same : definitions'.Perm definitions) (name : String) (input : Text) :
    ((recursive name g).parserAmong outer input).Alike
      ((g.substitute (single name (recursive name g))).parserAmong outer input) ∧
    ((together definitions body).parserAmong outer input).Alike
      ((body.substitute (finished definitions)).parserAmong outer input) ∧
    ((together definitions body).parserAmong outer input).Alike
      ((body.substitute (unfolded definitions)).parserAmong outer input) ∧
    ((together definitions body).parserAmong outer input).Alike
      ((together definitions' body).parserAmong outer input) := by
  have recursiveEnds : (recursive name g).Leaves Leaf.LeavesEnd := ends
  have self : ∀ x, (single name (recursive name g) x).Leaves Leaf.LeavesEnd := fun x => by
    unfold single
    split
    · exact ends
    · trivial
  have togetherEnds : (together definitions body).Leaves Leaf.LeavesEnd := ⟨definedEnds, bodyEnds⟩
  have reorderedEnds : (together definitions' body).Leaves Leaf.LeavesEnd :=
    ⟨leavesOfDefinitionsIff.mpr fun d inside =>
      leavesOfDefinitionsIff.mp definedEnds d (same.mem_iff.mp inside), bodyEnds⟩
  refine ⟨?_, ?_, ?_, ?_⟩
  · exact approachesAmong outerEnds recursiveEnds (substituteLeaves g ends self)
      (approachesNext (recursiveUnfolds name g _)) input
  · exact approachesAmong outerEnds togetherEnds
      (substituteLeaves body bodyEnds (finishedLeaves definedEnds))
      (approachesSame (togetherFinishes body _)) input
  · exact approachesAmong outerEnds togetherEnds
      (substituteLeaves body bodyEnds (unfoldedLeaves definedEnds))
      (togetherUnfolds distinct body _) input
  · exact approachesAmong outerEnds togetherEnds reorderedEnds
      (approachesSame (togetherOrder same distinct body _)) input

theorem valuesUnfold :
    let values : List (String × Grammar) :=
      [("value", .choice [literal "x", .ref "list"]),
       ("list", .sequence [literal "[", .wrap .many (.ref "value"), literal "]"])]
    let around : Grammar := .choice [.sequence [literal "(", .ref "self", literal ")"], .ref "value"]
    (values.map Prod.fst).Nodup ∧ values.reverse.Perm values ∧
      LeavesOfDefinitions Leaf.LeavesEnd values ∧ around.Leaves Leaf.LeavesEnd ∧
    ((recursive "self" around).parserAmong values "([x[x]])".toList).Alike
      ((around.substitute (single "self" (recursive "self" around))).parserAmong values
        "([x[x]])".toList) ∧
    ((together values around).parserAmong values "([x[x]])".toList).Alike
      ((around.substitute (finished values)).parserAmong values "([x[x]])".toList) ∧
    ((together values around).parserAmong values "([x[x]])".toList).Alike
      ((around.substitute (unfolded values)).parserAmong values "([x[x]])".toList) ∧
    ((together values around).parserAmong values "([x[x]])".toList).Alike
      ((together values.reverse around).parserAmong values "([x[x]])".toList) := by
  intro values around
  have distinct : (values.map Prod.fst).Nodup := by simp [values]
  have ends : LeavesOfDefinitions Leaf.LeavesEnd values := by
    repeat' constructor
  have aroundEnds : around.Leaves Leaf.LeavesEnd := by
    repeat' constructor
  exact ⟨distinct, List.reverse_perm values, ends, aroundEnds,
    lateBindingUnfolds ends aroundEnds ends aroundEnds distinct (List.reverse_perm values) "self" _⟩

end Grammar
end Descent
