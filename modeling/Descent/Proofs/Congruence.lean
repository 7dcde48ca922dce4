import Mathlib.Data.List.Forall2
import Descent.Proofs.Substitution
/-!
Grammars that are changed at places inside them. A relation that every way to build a grammar keeps holds
of the whole when it holds at each place. To mean the same under all names is such a relation: so it does
not matter, wherever a grammar refers to itself, whether it does so by a handle that owns its cell or by
one that only watches it.
-/
namespace Descent

/-- A place in a grammar: which part to enter, from the outside in. The parts of a grammar are numbered in
the order in which they are assembled. -/
abbrev Position := List Nat

namespace Grammar

def under {α : Type} (i : Nat) (change : Position → α) : Position → α :=
  fun p => change (i :: p)

mutual

def changed (change : Position → Grammar → Grammar) : Grammar → Grammar
  | .leaf l => change [] (.leaf l)
  | .wrap w body => change [] (.wrap w (changed (under 0 change) body))
  | .choice members => change [] (.choice (changedAll change 0 members))
  | .sequence members => change [] (.sequence (changedAll change 0 members))
  | .choiceOf n member last =>
    change [] (.choiceOf n (changed (under 0 change) member) (changed (under 1 change) last))
  | .between left middle right =>
    change [] (.between (changed (under 0 change) left) (changed (under 1 change) middle)
      (changed (under 2 change) right))
  | .block start terminator escape =>
    change [] (.block (changed (under 0 change) start) (changed (under 1 change) terminator)
      (changed (under 2 change) escape))
  | .ref name => change [] (.ref name)
  | .recursive name body => change [] (.recursive name (changed (under 0 change) body))
  | .together definitions body =>
    change [] (.together (changedDefinitions change 0 definitions)
      (changed (under definitions.length change) body))

def changedAll (change : Position → Grammar → Grammar) (i : Nat) : List Grammar → List Grammar
  | [] => []
  | g :: gs => changed (under i change) g :: changedAll change (i + 1) gs

def changedDefinitions (change : Position → Grammar → Grammar) (i : Nat) :
    List (String × Grammar) → List (String × Grammar)
  | [] => []
  | (name, g) :: gs => (name, changed (under i change) g) :: changedDefinitions change (i + 1) gs

end

def Paired (related : Grammar → Grammar → Prop) :
    List (String × Grammar) → List (String × Grammar) → Prop :=
  List.Forall₂ fun d d' => d.1 = d'.1 ∧ related d.2 d'.2

structure Congruence (related : Grammar → Grammar → Prop) : Prop where
  trans {g h k} (first : related g h) (second : related h k) : related g k
  leaf (l) : related (.leaf l) (.leaf l)
  wrap {g h} (w) (body : related g h) : related (.wrap w g) (.wrap w h)
  choice {gs hs} (members : List.Forall₂ related gs hs) : related (.choice gs) (.choice hs)
  sequence {gs hs} (members : List.Forall₂ related gs hs) : related (.sequence gs) (.sequence hs)
  choiceOf {g h g' h'} (n) (member : related g h) (last : related g' h') :
    related (.choiceOf n g g') (.choiceOf n h h')
  between {a b c a' b' c'} (left : related a a') (middle : related b b') (right : related c c') :
    related (.between a b c) (.between a' b' c')
  block {a b c a' b' c'} (start : related a a') (terminator : related b b')
    (escape : related c c') : related (.block a b c) (.block a' b' c')
  ref (name) : related (.ref name) (.ref name)
  recursive {g h} (name) (body : related g h) : related (.recursive name g) (.recursive name h)
  together {ds ds' g h} (definitions : Paired related ds ds') (body : related g h) :
    related (.together ds g) (.together ds' h)

variable {related : Grammar → Grammar → Prop}

mutual

theorem changedRelated (congruence : Congruence related) : ∀ (g : Grammar)
    {change : Position → Grammar → Grammar}, (∀ p h, related (change p h) h) →
      related (g.changed change) g
  | .leaf l, _, keeps => congruence.trans (keeps [] _) (congruence.leaf l)
  | .wrap w body, _, keeps => congruence.trans (keeps [] _)
      (congruence.wrap w (changedRelated congruence body fun p => keeps (0 :: p)))
  | .choice members, _, keeps => congruence.trans (keeps [] _)
      (congruence.choice (changedAllRelated congruence members 0 keeps))
  | .sequence members, _, keeps => congruence.trans (keeps [] _)
      (congruence.sequence (changedAllRelated congruence members 0 keeps))
  | .choiceOf n member last, _, keeps => congruence.trans (keeps [] _)
      (congruence.choiceOf n (changedRelated congruence member fun p => keeps (0 :: p))
        (changedRelated congruence last fun p => keeps (1 :: p)))
  | .between left middle right, _, keeps => congruence.trans (keeps [] _)
      (congruence.between (changedRelated congruence left fun p => keeps (0 :: p))
        (changedRelated congruence middle fun p => keeps (1 :: p))
        (changedRelated congruence right fun p => keeps (2 :: p)))
  | .block start terminator escape, _, keeps => congruence.trans (keeps [] _)
      (congruence.block (changedRelated congruence start fun p => keeps (0 :: p))
        (changedRelated congruence terminator fun p => keeps (1 :: p))
        (changedRelated congruence escape fun p => keeps (2 :: p)))
  | .ref name, _, keeps => congruence.trans (keeps [] _) (congruence.ref name)
  | .recursive name body, _, keeps => congruence.trans (keeps [] _)
      (congruence.recursive name (changedRelated congruence body fun p => keeps (0 :: p)))
  | .together definitions body, _, keeps => congruence.trans (keeps [] _)
      (congruence.together (changedDefinitionsRelated congruence definitions 0 keeps)
        (changedRelated congruence body fun p => keeps (definitions.length :: p)))

theorem changedAllRelated (congruence : Congruence related) : ∀ (gs : List Grammar) (i : Nat)
    {change : Position → Grammar → Grammar}, (∀ p h, related (change p h) h) →
      List.Forall₂ related (changedAll change i gs) gs
  | [], _, _, _ => .nil
  | g :: gs, i, _, keeps =>
    .cons (changedRelated congruence g fun p => keeps (i :: p)) (changedAllRelated congruence gs (i + 1) keeps)

theorem changedDefinitionsRelated (congruence : Congruence related) :
    ∀ (gs : List (String × Grammar)) (i : Nat) {change : Position → Grammar → Grammar},
      (∀ p h, related (change p h) h) → Paired related (changedDefinitions change i gs) gs
  | [], _, _, _ => .nil
  | (_, g) :: gs, i, _, keeps =>
    .cons ⟨rfl, changedRelated congruence g fun p => keeps (i :: p)⟩
      (changedDefinitionsRelated congruence gs (i + 1) keeps)

end

def Equivalent (g h : Grammar) : Prop :=
  ∀ depth env, g.meaning (Closure.run depth) env = h.meaning (Closure.run depth) env

theorem equivalentMeanings {gs hs : List Grammar} (members : List.Forall₂ Equivalent gs hs) (depth : Nat)
    (env : Environment) : meanings (Closure.run depth) env gs = meanings (Closure.run depth) env hs := by
  induction members with
  | nil => rfl
  | cons first _ ih => rw [meanings, meanings, first, ih]

theorem equivalentNames {definitions definitions' : List (String × Grammar)}
    (paired : Paired Equivalent definitions definitions') (env : Environment) (depth : Nat) (x : String) :
    (ref x).meaning (Closure.run depth) (Environment.defining definitions env) =
      (ref x).meaning (Closure.run depth) (Environment.defining definitions' env) := by
  -- What a definition refers to is one deeper.
  induction depth using Nat.strongRecOn generalizing x with
  | ind depth ih =>
    have closures : List.Forall₂ (fun entry entry' : String × Closure => entry.1 = entry'.1 ∧
        entry.2.run depth = entry'.2.run depth)
        (definitions.map fun d => (d.1, Closure.mk definitions d.2 env)).reverse
        (definitions'.map fun d => (d.1, Closure.mk definitions' d.2 env)).reverse := by
      refine List.rel_reverse (List.forall₂_map_left_iff.mpr (List.forall₂_map_right_iff.mpr ?_))
      refine paired.imp fun d d' holds => ⟨holds.1, ?_⟩
      cases depth with
      | zero => rfl
      | succ depth =>
        have names := d.2.stable depth (Environment.defining definitions env)
          (Environment.defining definitions' env)
          fun y _ less within => ih less (Nat.lt_succ_of_le within) y
        exact names.trans (holds.2 depth _)
    rw [meaning, meaning, Environment.defining, Environment.defining]
    rcases Table.findBefore (fun c c' : Closure => c.run depth = c'.run depth) closures env env x with
      ⟨c, c', same, found, found'⟩ | ⟨passed, passed'⟩
    · rw [found, found']
      exact same
    · rw [passed, passed']

theorem equivalentAmong {definitions definitions' : List (String × Grammar)} {g h : Grammar}
    (paired : Paired Equivalent definitions definitions') (same : g.Equivalent h) (depth : Nat)
    (env : Environment) :
    g.meaning (Closure.run depth) (Environment.defining definitions env) =
      h.meaning (Closure.run depth) (Environment.defining definitions' env) :=
  (g.stable depth _ _ fun x _ d _ => equivalentNames paired env d x).trans (same depth _)

theorem equivalentCongruence : Congruence Equivalent where
  trans first second depth env := (first depth env).trans (second depth env)
  leaf _ _ _ := rfl
  wrap w body depth env := congrArg w.parser (body depth env)
  choice members depth env := congrArg Parser.choice (equivalentMeanings members depth env)
  sequence members depth env := congrArg Parser.sequence (equivalentMeanings members depth env)
  choiceOf n member last depth env := by rw [meaning, meaning, member, last]
  between left middle right depth env := by rw [meaning, meaning, left, middle, right]
  block start terminator escape depth env := by rw [meaning, meaning, start, terminator, escape]
  ref _ _ _ := rfl
  recursive {g h} name body depth env := by
    cases depth with
    | zero => rfl
    | succ depth =>
      have paired : Paired Equivalent [(name, g)] [(name, h)] := .cons ⟨rfl, body⟩ .nil
      exact equivalentAmong paired body depth env
  together definitions body depth env := equivalentAmong definitions body depth env

structure Same (g h : Grammar) : Prop where
  cells : g.cells = h.cells
  means (depth env) : g.meaning (Closure.run depth) env = h.meaning (Closure.run depth) env

theorem cellsAll {gs hs : List Grammar}
    (members : List.Forall₂ (fun g h : Grammar => g.cells = h.cells) gs hs) :
    cellsOfAll gs = cellsOfAll hs := by
  induction members with
  | nil => rfl
  | cons first _ ih => rw [cellsOfAll, cellsOfAll, first, ih]

theorem cellsDefinitions {definitions definitions' : List (String × Grammar)}
    (paired : Paired (fun g h => g.cells = h.cells) definitions definitions') :
    cellsOfDefinitions definitions = cellsOfDefinitions definitions' := by
  induction paired with
  | nil => rfl
  | cons first _ ih => rw [cellsOfDefinitions, cellsOfDefinitions, first.2, ih]

theorem cellsCongruence : Congruence fun g h => g.cells = h.cells where
  trans := Eq.trans
  leaf _ := rfl
  wrap _ body := body
  choice := cellsAll
  sequence := cellsAll
  choiceOf n member last := by rw [cells, cells, member, last]
  between left middle right := by rw [cells, cells, left, middle, right]
  block start terminator escape := by rw [cells, cells, start, terminator, escape]
  ref _ := rfl
  recursive name body := by rw [cells, cells, body]
  together definitions body := by
    rw [cells, cells, definitions.length_eq, cellsDefinitions definitions, body]

theorem sameParser {g h : Grammar} (same : g.Same h) : g.parser = h.parser := by
  funext input
  rw [parserMeans, parserMeans, same.cells, same.means]

/-- A grammar that refers to itself by the handle that does not own its cell, with handles that own it
instead, and the other way about. All other grammars have no other form. -/
def otherForm : Grammar → Grammar
  | .recursive name g => .together [(name, g)] (.ref name)
  | .together [(name, g)] (.ref other) =>
    if other = name then .recursive name g else .together [(name, g)] (.ref other)
  | g => g

example : (Grammar.wrap .many (.recursive "x" (.choice [.ref "x", .leaf .anyChar]))).changed
    (fun p h => if p = [0] then h.otherForm else h) =
      .wrap .many (.together [("x", .choice [.ref "x", .leaf .anyChar])] (.ref "x")) := by
  rfl

theorem formsSame (name : String) (g : Grammar) :
    (together [(name, g)] (.ref name)).Same (recursive name g) := by
  refine ⟨?_, fun depth env => ?_⟩
  · simp only [cells, cellsOfDefinitions, List.length_singleton]
    omega
  · simp [meaning, Environment.defining, Table.find?]

theorem otherFormSame (g : Grammar) : g.otherForm.Same g := by
  unfold otherForm
  split
  · exact formsSame _ _
  · rename_i name g other
    split
    · rename_i same
      subst same
      exact ⟨(formsSame other g).cells.symm, fun depth env => ((formsSame other g).means depth env).symm⟩
    · exact ⟨rfl, fun _ _ => rfl⟩
  · exact ⟨rfl, fun _ _ => rfl⟩

/-- At whatever places of a grammar a self reference is put into its other form, and however the forms are
mixed: the grammar is run in the same way on every text, with the same journal and the same end, and so it
is where it has to match the whole of the text. -/
theorem formOfSelfReferenceIsFree (places : Position → Bool) (g : Grammar) (input : Text) :
    let other := g.changed fun p h => if places p then h.otherForm else h
    other.parser input = g.parser input ∧ parseAll other.parser input = parseAll g.parser input := by
  have same : (g.changed fun p h => if places p then h.otherForm else h).Same g := by
    have here (p : Position) (h : Grammar) : (if places p then h.otherForm else h).Same h := by
      split
      · exact otherFormSame h
      · exact ⟨rfl, fun _ _ => rfl⟩
    exact ⟨changedRelated cellsCongruence g fun p h => (here p h).cells,
      changedRelated equivalentCongruence g fun p h => (here p h).means⟩
  intro other
  rw [sameParser same]
  exact ⟨rfl, rfl⟩

end Grammar
end Descent
