import Descent.Proofs.Marks
import Descent.Proofs.Unfolding
/-!
Flat grammars. A choice among the members of a choice may as well have its own members there, and a
sequence in a sequence likewise; a member that never matches adds nothing to a choice, and one that matches
nothing at once adds nothing to a sequence; and what has one member is that member. Grammars that are
flattened in this way, everywhere and below names too, are run as they were before.
-/
namespace Descent

namespace Parser

structure Joins {α : Type} (join : List (Parser α) → Parser α) : Prop where
  alone (p) : join [p] = p
  behind (p) {ps qs} (same : join ps = join qs) : join (p :: ps) = join (p :: qs)
  spliced (ps qs) : join (join ps :: qs) = join (ps ++ qs)

variable {α : Type} {ps qs : List (Parser α)}

theorem choiceBehind (p : Parser α) (same : choice ps = choice qs) :
    choice (p :: ps) = choice (p :: qs) := by
  funext input
  simp only [choice, same]

theorem choiceSpliced (ps qs : List (Parser α)) : choice (choice ps :: qs) = choice (ps ++ qs) := by
  induction ps with
  | nil => rfl
  | cons p ps ih =>
    rw [List.cons_append, choiceBehind p ih.symm]
    funext input
    simp only [choice, bind_assoc]
    apply bind_congr
    intro found
    cases found with
    | none => rfl
    | some m => rw [pure_bind]

theorem choiceAlone (p : Parser α) : choice [p] = p := by
  funext input
  exact (bind_congr fun found => by cases found <;> rfl).trans (bind_pure (p input))

theorem sequenceBehind (p : Parser α) (same : sequence ps = sequence qs) :
    sequence (p :: ps) = sequence (p :: qs) := by
  funext input
  simp only [sequence, same]

theorem sequenceSpliced (ps qs : List (Parser α)) :
    sequence (sequence ps :: qs) = sequence (ps ++ qs) := by
  induction ps with
  | nil =>
    funext input
    simp only [sequence, pure_bind, List.nil_append]
    exact (bind_congr fun found => by cases found <;> rfl).trans (bind_pure (sequence qs input))
  | cons p ps ih =>
    rw [List.cons_append, sequenceBehind p ih.symm]
    funext input
    simp only [sequence, bind_assoc]
    apply bind_congr
    intro found
    cases found with
    | none => rfl
    | some m =>
      simp only [bind_assoc]
      apply bind_congr
      intro next
      cases next with
      | none => rfl
      | some n =>
        simp only [pure_bind, bind_assoc]
        apply bind_congr
        intro last
        cases last with
        | none => rfl
        | some k => simp only [pure_bind, List.append_assoc]

theorem sequenceAlone (p : Parser α) : sequence [p] = p := by
  funext input
  apply (bind_congr fun found => ?_).trans (bind_pure (p input))
  cases found with
  | none => rfl
  | some m => simp only [sequence, pure_bind, List.append_nil]

theorem choiceJoins : Joins (choice : List (Parser α) → Parser α) :=
  ⟨choiceAlone, fun p _ _ => choiceBehind p, choiceSpliced⟩

theorem sequenceJoins : Joins (sequence : List (Parser α) → Parser α) :=
  ⟨sequenceAlone, fun p _ _ => sequenceBehind p, sequenceSpliced⟩

end Parser

namespace Grammar

def alternatives : Grammar → List Grammar
  | .choice members => members
  | .leaf .fail => []
  | .leaf (.literal expected) => if expected = "" then [] else [literal expected]
  | g => [g]

def steps : Grammar → List Grammar
  | .sequence members => members
  | .leaf .succeed => []
  | g => [g]

def joining (join : List Grammar → Grammar) : List Grammar → Grammar
  | [g] => g
  | gs => join gs

def spliced : Grammar → Grammar
  | .choice members => joining .choice (members.flatMap alternatives)
  | .choiceOf n member last => joining .choice ((List.replicate n member ++ [last]).flatMap alternatives)
  | .sequence members => joining .sequence (members.flatMap steps)
  | .wrap (.times n) body => joining .sequence ((List.replicate n body).flatMap steps)
  | g => g

def flat (g : Grammar) : Grammar :=
  g.changed fun _ h => h.spliced

example : (Grammar.choiceOf 2 (.choice [literal "a", .leaf .fail]) (.wrap .notAhead (.wrap (.times 1)
    (.sequence [literal "b", .leaf .succeed])))).flat =
      .choice [literal "a", literal "a", .wrap .notAhead (literal "b")] := by
  rfl

variable {join : List Grammar → Grammar} {expand : Grammar → List Grammar}
  {combine : List (Parser Value) → Parser Value} (call : Closure → Parser Value) (env : Environment)

theorem meaningsMap (gs : List Grammar) : meanings call env gs = gs.map (meaning call env) := by
  induction gs with
  | nil => rfl
  | cons g gs ih => rw [meanings, ih, List.map_cons]

theorem expandedMean (joins : Parser.Joins combine)
    (expands : ∀ g, combine ((expand g).map (meaning call env)) = g.meaning call env)
    (gs : List Grammar) : combine ((gs.flatMap expand).map (meaning call env)) =
      combine (gs.map (meaning call env)) := by
  induction gs with
  | nil => rfl
  | cons g gs ih =>
    rw [List.flatMap_cons, List.map_append, List.map_cons, ← joins.spliced, expands]
    exact joins.behind _ ih

theorem joiningMeans (joins : Parser.Joins combine)
    (means : ∀ gs, (join gs).meaning call env = combine (gs.map (meaning call env)))
    (gs : List Grammar) : (joining join gs).meaning call env = combine (gs.map (meaning call env)) := by
  unfold joining
  split
  · exact (joins.alone _).symm
  · exact means _

theorem alternativesMean (g : Grammar) :
    Parser.choice (g.alternatives.map (meaning call env)) = g.meaning call env := by
  unfold alternatives
  split
  · rw [meaning, meaningsMap]
  · rfl
  · split
    · rename_i empty
      subst empty
      rfl
    · exact Parser.choiceAlone _
  · exact Parser.choiceAlone _

theorem stepsMean (g : Grammar) :
    Parser.sequence (g.steps.map (meaning call env)) = g.meaning call env := by
  unfold steps
  split
  · rw [meaning, meaningsMap]
  · rfl
  · exact Parser.sequenceAlone _

theorem choiceMeans (gs : List Grammar) : (joining .choice (gs.flatMap alternatives)).meaning call env =
    Parser.choice (gs.map (meaning call env)) := by
  have means (gs : List Grammar) : (choice gs).meaning call env =
      Parser.choice (gs.map (meaning call env)) := by
    rw [meaning, meaningsMap]
  rw [joiningMeans call env Parser.choiceJoins means,
    expandedMean call env Parser.choiceJoins (alternativesMean call env)]

theorem sequenceMeans (gs : List Grammar) : (joining .sequence (gs.flatMap steps)).meaning call env =
    Parser.sequence (gs.map (meaning call env)) := by
  have means (gs : List Grammar) : (sequence gs).meaning call env =
      Parser.sequence (gs.map (meaning call env)) := by
    rw [meaning, meaningsMap]
  rw [joiningMeans call env Parser.sequenceJoins means,
    expandedMean call env Parser.sequenceJoins (stepsMean call env)]

theorem splicedMeans (g : Grammar) : g.spliced.meaning call env = g.meaning call env := by
  unfold spliced
  split
  · rw [choiceMeans, meaning, meaningsMap]
  · rw [choiceMeans, meaning, List.map_append, List.map_replicate, List.map_singleton]
  · rw [sequenceMeans, meaning, meaningsMap]
  · rw [sequenceMeans, meaning, List.map_replicate]
    rfl
  · rfl

theorem flatEquivalent (g : Grammar) : g.flat.Equivalent g :=
  changedRelated equivalentCongruence g fun _ h depth env => splicedMeans (Closure.run depth) env h

def parts : Grammar → List Grammar
  | .leaf _ => []
  | .wrap _ body => [body]
  | .choice members => members
  | .sequence members => members
  | .choiceOf _ member last => [member, last]
  | .between left middle right => [left, middle, right]
  | .block start terminator escape => [start, terminator, escape]
  | .ref _ => []
  | .recursive _ body => [body]
  | .together definitions body => definitions.map Prod.snd ++ [body]

inductive Everywhere (holds : Grammar → Prop) : Grammar → Prop
  | node {g} (here : holds g) (inside : ∀ part ∈ g.parts, Everywhere holds part) : Everywhere holds g

def FitsChoice : Grammar → Prop
  | .choice _ => False
  | .leaf .fail => False
  | .leaf (.literal expected) => expected ≠ ""
  | _ => True

def FitsSequence : Grammar → Prop
  | .sequence _ => False
  | .leaf .succeed => False
  | _ => True

def FlatHere : Grammar → Prop
  | .choice members => (∀ g ∈ members, g.FitsChoice) ∧ ∀ g, members ≠ [g]
  | .sequence members => (∀ g ∈ members, g.FitsSequence) ∧ ∀ g, members ≠ [g]
  | .choiceOf _ _ _ => False
  | .wrap (.times _) _ => False
  | _ => True

/-- No choice has a choice, or what never matches, as a member; no sequence has a sequence, or what always
matches nothing; none of them has just one member, and none is written in short. -/
def Flat (g : Grammar) : Prop := Everywhere FlatHere g

variable {holds : Grammar → Prop} {change : Position → Grammar → Grammar}

mutual

theorem changedEverywhere : ∀ (g : Grammar) {change : Position → Grammar → Grammar},
    (∀ p h, (∀ part ∈ h.parts, Everywhere holds part) → Everywhere holds (change p h)) →
      Everywhere holds (g.changed change)
  | .leaf _, _, keeps => keeps [] _ (List.forall_mem_nil _)
  | .wrap _ body, _, keeps => keeps [] _ (List.forall_mem_singleton.mpr
      (changedEverywhere body fun p => keeps (0 :: p)))
  | .choice members, _, keeps => keeps [] _ (changedAllEverywhere members 0 keeps)
  | .sequence members, _, keeps => keeps [] _ (changedAllEverywhere members 0 keeps)
  | .choiceOf _ member last, _, keeps => by
    have first := changedEverywhere member fun p => keeps (0 :: p)
    have second := changedEverywhere last fun p => keeps (1 :: p)
    exact keeps [] _ (List.forall_mem_cons.mpr ⟨first, List.forall_mem_singleton.mpr second⟩)
  | .between left middle right, _, keeps => by
    have first := changedEverywhere left fun p => keeps (0 :: p)
    have second := changedEverywhere middle fun p => keeps (1 :: p)
    have third := changedEverywhere right fun p => keeps (2 :: p)
    exact keeps [] _ (List.forall_mem_cons.mpr ⟨first, List.forall_mem_cons.mpr
      ⟨second, List.forall_mem_singleton.mpr third⟩⟩)
  | .block start terminator escape, _, keeps => by
    have first := changedEverywhere start fun p => keeps (0 :: p)
    have second := changedEverywhere terminator fun p => keeps (1 :: p)
    have third := changedEverywhere escape fun p => keeps (2 :: p)
    exact keeps [] _ (List.forall_mem_cons.mpr ⟨first, List.forall_mem_cons.mpr
      ⟨second, List.forall_mem_singleton.mpr third⟩⟩)
  | .ref _, _, keeps => keeps [] _ (List.forall_mem_nil _)
  | .recursive _ body, _, keeps => keeps [] _ (List.forall_mem_singleton.mpr
      (changedEverywhere body fun p => keeps (0 :: p)))
  | .together definitions body, _, keeps => by
    have defined := changedDefinitionsEverywhere definitions 0 keeps
    have inside := changedEverywhere body fun p => keeps (definitions.length :: p)
    exact keeps [] _ (List.forall_mem_append.mpr ⟨defined, List.forall_mem_singleton.mpr inside⟩)

theorem changedAllEverywhere : ∀ (gs : List Grammar) (i : Nat) {change : Position → Grammar → Grammar},
    (∀ p h, (∀ part ∈ h.parts, Everywhere holds part) → Everywhere holds (change p h)) →
      ∀ g ∈ changedAll change i gs, Everywhere holds g
  | [], _, _, _ => List.forall_mem_nil _
  | g :: gs, i, _, keeps => List.forall_mem_cons.mpr
      ⟨changedEverywhere g fun p => keeps (i :: p), changedAllEverywhere gs (i + 1) keeps⟩

theorem changedDefinitionsEverywhere : ∀ (gs : List (String × Grammar)) (i : Nat)
    {change : Position → Grammar → Grammar},
    (∀ p h, (∀ part ∈ h.parts, Everywhere holds part) → Everywhere holds (change p h)) →
      ∀ g ∈ (changedDefinitions change i gs).map Prod.snd, Everywhere holds g
  | [], _, _, _ => List.forall_mem_nil _
  | (_, g) :: gs, i, _, keeps => List.forall_mem_cons.mpr
      ⟨changedEverywhere g fun p => keeps (i :: p), changedDefinitionsEverywhere gs (i + 1) keeps⟩

end

theorem alternativesFlat {g : Grammar} (flat : g.Flat) :
    ∀ h ∈ g.alternatives, h.Flat ∧ h.FitsChoice := by
  cases g with
  | choice members =>
    cases flat with
    | node here inside => exact fun h member => ⟨inside h member, here.1 h member⟩
  | leaf l =>
    cases l with
    | fail => simp [alternatives]
    | literal expected =>
      simp only [alternatives]
      split
      · exact List.forall_mem_nil _
      · rename_i full
        exact List.forall_mem_singleton.mpr ⟨flat, full⟩
    | _ => exact List.forall_mem_singleton.mpr ⟨flat, trivial⟩
  | _ => exact List.forall_mem_singleton.mpr ⟨flat, trivial⟩

theorem stepsFlat {g : Grammar} (flat : g.Flat) : ∀ h ∈ g.steps, h.Flat ∧ h.FitsSequence := by
  cases g with
  | sequence members =>
    cases flat with
    | node here inside => exact fun h member => ⟨inside h member, here.1 h member⟩
  | leaf l =>
    cases l with
    | succeed => simp [steps]
    | _ => exact List.forall_mem_singleton.mpr ⟨flat, trivial⟩
  | _ => exact List.forall_mem_singleton.mpr ⟨flat, trivial⟩

theorem joiningMade {join : List Grammar → Grammar} {expand : Grammar → List Grammar}
    {made fits : Grammar → Prop}
    (joins : ∀ hs, (∀ h ∈ hs, made h ∧ fits h) → (∀ h, hs ≠ [h]) → made (join hs))
    (expands : ∀ g, made g → ∀ h ∈ expand g, made h ∧ fits h) {gs : List Grammar}
    (members : ∀ g ∈ gs, made g) : made (joining join (gs.flatMap expand)) := by
  have fit : ∀ h ∈ gs.flatMap expand, made h ∧ fits h := by
    intro h inside
    obtain ⟨g, member, among⟩ := List.mem_flatMap.mp inside
    exact expands g (members g member) h among
  unfold joining
  split
  · rename_i g alone
    exact (fit g (alone ▸ List.mem_singleton_self g)).1
  · rename_i several
    exact joins _ fit several

theorem choiceFlat {gs : List Grammar} (members : ∀ g ∈ gs, g.Flat) :
    (joining .choice (gs.flatMap alternatives)).Flat := by
  refine joiningMade (fun hs fit several => ?_) (fun _ => alternativesFlat) members
  have here : FlatHere (.choice hs) := ⟨fun h inside => (fit h inside).2, several⟩
  exact .node here fun h inside => (fit h inside).1

theorem sequenceFlat {gs : List Grammar} (members : ∀ g ∈ gs, g.Flat) :
    (joining .sequence (gs.flatMap steps)).Flat := by
  refine joiningMade (fun hs fit several => ?_) (fun _ => stepsFlat) members
  have here : FlatHere (.sequence hs) := ⟨fun h inside => (fit h inside).2, several⟩
  exact .node here fun h inside => (fit h inside).1

theorem splicedFlat {g : Grammar} (inside : ∀ part ∈ g.parts, part.Flat) : g.spliced.Flat := by
  cases g with
  | choice members => exact choiceFlat inside
  | choiceOf n member last =>
    obtain ⟨first, second⟩ := List.forall_mem_cons.mp inside
    refine choiceFlat (List.forall_mem_append.mpr ⟨fun h copy => ?_, second⟩)
    exact List.eq_of_mem_replicate copy ▸ first
  | sequence members => exact sequenceFlat inside
  | wrap w body =>
    cases w with
    | times n =>
      refine sequenceFlat fun h copy => ?_
      exact List.eq_of_mem_replicate copy ▸ List.forall_mem_singleton.mp inside
    | _ => exact .node trivial inside
  | _ => exact .node trivial inside

theorem flatIsFlat (g : Grammar) : g.flat.Flat :=
  changedEverywhere g fun _ _ => splicedFlat

variable {good : Leaf → Prop}

theorem alternativesLeaves {g : Grammar} (own : g.Leaves good) : ∀ h ∈ g.alternatives, h.Leaves good := by
  unfold alternatives
  split
  · exact leavesOfAllIff.mp own
  · exact List.forall_mem_nil _
  · split
    · exact List.forall_mem_nil _
    · exact List.forall_mem_singleton.mpr own
  · exact List.forall_mem_singleton.mpr own

theorem stepsLeaves {g : Grammar} (own : g.Leaves good) : ∀ h ∈ g.steps, h.Leaves good := by
  unfold steps
  split
  · exact leavesOfAllIff.mp own
  · exact List.forall_mem_nil _
  · exact List.forall_mem_singleton.mpr own

theorem choiceLeaves {gs : List Grammar} (members : ∀ g ∈ gs, g.Leaves good) :
    (joining .choice (gs.flatMap alternatives)).Leaves good := by
  have expands (g : Grammar) (own : g.Leaves good) : ∀ h ∈ g.alternatives, h.Leaves good ∧ True :=
    fun h inside => ⟨alternativesLeaves own h inside, trivial⟩
  refine joiningMade (fun hs fit _ => ?_) expands members
  exact leavesOfAllIff.mpr fun h inside => (fit h inside).1

theorem sequenceLeaves {gs : List Grammar} (members : ∀ g ∈ gs, g.Leaves good) :
    (joining .sequence (gs.flatMap steps)).Leaves good := by
  have expands (g : Grammar) (own : g.Leaves good) : ∀ h ∈ g.steps, h.Leaves good ∧ True :=
    fun h inside => ⟨stepsLeaves own h inside, trivial⟩
  refine joiningMade (fun hs fit _ => ?_) expands members
  exact leavesOfAllIff.mpr fun h inside => (fit h inside).1

theorem splicedLeaves {g : Grammar} (own : g.Leaves good) : g.spliced.Leaves good := by
  unfold spliced
  split
  · exact choiceLeaves (leavesOfAllIff.mp own)
  · refine choiceLeaves (List.forall_mem_append.mpr ⟨fun h copy => ?_, by simpa using own.2⟩)
    exact List.eq_of_mem_replicate copy ▸ own.1
  · exact sequenceLeaves (leavesOfAllIff.mp own)
  · exact sequenceLeaves fun h copy => List.eq_of_mem_replicate copy ▸ own
  · exact own

theorem flatLeaves {g : Grammar} (own : g.Leaves good) : g.flat.Leaves good :=
  changedRelated (leavesCongruence good) g (fun _ _ => splicedLeaves) own

/-- Flattened everywhere, a grammar is flat, and means what it meant however deep references are open. So
it is run as before, alone and among definitions that it refers to, on every text: with what is left and
produced, what is reported and how it stops. Only runs that never end are not told apart. -/
theorem flatteningKeepsTheMeaning (g : Grammar) : g.flat.Flat ∧ g.flat.Equivalent g ∧
    (g.Leaves Leaf.LeavesEnd → ∀ input, (g.flat.parser input).Alike (g.parser input) ∧
      ∀ outer, LeavesOfDefinitions Leaf.LeavesEnd outer →
        (g.flat.parserAmong outer input).Alike (g.parserAmong outer input)) := by
  refine ⟨g.flatIsFlat, g.flatEquivalent, fun own input => ?_⟩
  have flatEnds : g.flat.Leaves Leaf.LeavesEnd := flatLeaves own
  have approaches (env : Environment) := approachesSame fun depth => g.flatEquivalent depth env
  refine ⟨approachesAlike flatEnds own (approaches []).1 (approaches []).2 input, fun outer outerEnds => ?_⟩
  exact approachesAmong outerEnds flatEnds own (approaches _) input

theorem flattenedNestingKeepsTheMeaning :
    let nested : Grammar := .recursive "nested" (.choice [.choice [.sequence [literal "(",
      .sequence [.wrap (.traced "level") (.ref "nested"), .leaf .succeed], literal ")"], .leaf .fail],
      .choiceOf 1 (literal "") (literal "x")])
    let flattened : Grammar := .recursive "nested" (.choice [.sequence [literal "(",
      .wrap (.traced "level") (.ref "nested"), literal ")"], literal "x"])
    nested.Leaves Leaf.LeavesEnd ∧ nested.flat = flattened ∧ flattened.Flat ∧
      (flattened.parser "((x))".toList).Alike (nested.parser "((x))".toList) := by
  intro nested flattened
  have own : nested.Leaves Leaf.LeavesEnd := by
    repeat' constructor
  have same : nested.flat = flattened := by rfl
  obtain ⟨flat, -, runs⟩ := flatteningKeepsTheMeaning nested
  obtain ⟨alike, -⟩ := runs own "((x))".toList
  rw [same] at flat alike
  exact ⟨own, same, flat, alike⟩

end Grammar
end Descent
