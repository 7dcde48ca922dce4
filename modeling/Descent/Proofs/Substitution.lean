import Descent.Proofs.Meaning
/-!
Grammars in place of names. What is put in place of a name keeps its own names: binders above it are
renamed where they would capture one. A grammar with other grammars in place of its names means what it
meant where these names stand for those grammars; all that a grammar means depends on its free names.
-/
namespace Descent

namespace Grammar

def without (names free : List String) : List String :=
  free.filter fun name => !names.contains name

theorem memWithout {names free : List String} {x : String} :
    x ∈ without names free ↔ x ∈ free ∧ x ∉ names := by
  simp [without]

mutual

def free : Grammar → List String
  | .leaf _ => []
  | .wrap _ body => free body
  | .choice members => freeOfAll members
  | .sequence members => freeOfAll members
  | .choiceOf _ member last => free member ++ free last
  | .between left middle right => free left ++ free middle ++ free right
  | .block start terminator escape => free start ++ free terminator ++ free escape
  | .ref name => [name]
  | .recursive name body => without [name] (free body)
  | .together definitions body =>
    without (definitions.map Prod.fst) (freeOfDefinitions definitions ++ free body)

def freeOfAll : List Grammar → List String
  | [] => []
  | g :: gs => free g ++ freeOfAll gs

def freeOfDefinitions : List (String × Grammar) → List String
  | [] => []
  | (_, g) :: gs => free g ++ freeOfDefinitions gs

end

def longest : List String → Nat
  | [] => 0
  | name :: names => max name.length (longest names)

theorem lengthLongest {name : String} {names : List String} (inside : name ∈ names) :
    name.length ≤ longest names := by
  induction names with
  | nil => contradiction
  | cons first names ih =>
    rcases List.mem_cons.mp inside with rfl | later
    · exact Nat.le_max_left ..
    · exact Nat.le_trans (ih later) (Nat.le_max_right ..)

/-- What is put behind the names so that none of them is one of the others any more: nothing, unless
one of them is. -/
def apart (names taken : List String) : String :=
  if names.any taken.contains then String.ofList (List.replicate (longest taken + 1) '_') else ""

theorem apartNothing {names taken : List String} (already : ∀ name ∈ names, name ∉ taken) :
    apart names taken = "" := by
  rw [apart, if_neg (by simpa using already)]

theorem apartTaken {names taken : List String} {name : String} (inside : name ∈ names) :
    name ++ apart names taken ∉ taken := by
  unfold apart
  split
  · intro among
    have long := lengthLongest among
    simp only [String.length_append, String.length_ofList, List.length_replicate] at long
    omega
  · rename_i already
    simp only [List.any_eq_true, not_exists, not_and] at already
    simpa using already name inside

def renamed (names : List String) (suffix : String) (θ : String → Grammar) (x : String) : Grammar :=
  if names.contains x then .ref (x ++ suffix) else θ x

def suffixFor (names free : List String) (θ : String → Grammar) : String :=
  apart names (free.flatMap fun x => (θ x).free)

mutual

def substitute (θ : String → Grammar) : Grammar → Grammar
  | .leaf l => .leaf l
  | .wrap w body => .wrap w (substitute θ body)
  | .choice members => .choice (substituteAll θ members)
  | .sequence members => .sequence (substituteAll θ members)
  | .choiceOf n member last => .choiceOf n (substitute θ member) (substitute θ last)
  | .between left middle right =>
    .between (substitute θ left) (substitute θ middle) (substitute θ right)
  | .block start terminator escape =>
    .block (substitute θ start) (substitute θ terminator) (substitute θ escape)
  | .ref name => θ name
  | .recursive name body =>
    let suffix := suffixFor [name] (without [name] body.free) θ
    .recursive (name ++ suffix) (substitute (renamed [name] suffix θ) body)
  | .together definitions body =>
    let names := definitions.map Prod.fst
    let suffix := suffixFor names (without names (freeOfDefinitions definitions ++ body.free)) θ
    .together (substituteDefinitions suffix (renamed names suffix θ) definitions)
      (substitute (renamed names suffix θ) body)

def substituteAll (θ : String → Grammar) : List Grammar → List Grammar
  | [] => []
  | g :: gs => substitute θ g :: substituteAll θ gs

def substituteDefinitions (suffix : String) (θ : String → Grammar) :
    List (String × Grammar) → List (String × Grammar)
  | [] => []
  | (name, g) :: gs => (name ++ suffix, substitute θ g) :: substituteDefinitions suffix θ gs

end

def single (name : String) (g : Grammar) (x : String) : Grammar :=
  if x = name then g else .ref x

theorem mapSubstituted {α : Type} (f : String × Grammar → α) (suffix : String)
    (θ : String → Grammar) (definitions : List (String × Grammar)) :
    (substituteDefinitions suffix θ definitions).map f =
      definitions.map fun d => f (d.1 ++ suffix, d.2.substitute θ) := by
  induction definitions with
  | nil => rfl
  | cons d definitions ih => rw [substituteDefinitions, List.map_cons, ih, List.map_cons]

theorem suffixForRef (names free : List String) : suffixFor names (without names free) .ref = "" := by
  refine apartNothing fun name inside taken => ?_
  obtain ⟨x, outside, same⟩ := List.mem_flatMap.mp taken
  rw [List.mem_singleton.mp same] at inside
  exact (memWithout.mp outside).2 inside

theorem renamedRef (names : List String) : renamed names "" .ref = .ref := by
  funext x
  simp [renamed]

mutual

theorem substituteRef : ∀ g : Grammar, g.substitute .ref = g
  | .leaf _ => rfl
  | .wrap w body => congrArg (Grammar.wrap w) (substituteRef body)
  | .choice members => congrArg Grammar.choice (substituteAllRef members)
  | .sequence members => congrArg Grammar.sequence (substituteAllRef members)
  | .choiceOf n member last => by rw [substitute, substituteRef member, substituteRef last]
  | .between left middle right => by
    rw [substitute, substituteRef left, substituteRef middle, substituteRef right]
  | .block start terminator escape => by
    rw [substitute, substituteRef start, substituteRef terminator, substituteRef escape]
  | .ref _ => rfl
  | .recursive name body => by
    rw [substitute, suffixForRef, renamedRef, substituteRef body, String.append_empty]
  | .together definitions body => by
    rw [substitute, suffixForRef, renamedRef, substituteDefinitionsRef definitions,
      substituteRef body]

theorem substituteAllRef : ∀ gs : List Grammar, substituteAll .ref gs = gs
  | [] => rfl
  | g :: gs => by rw [substituteAll, substituteRef g, substituteAllRef gs]

theorem substituteDefinitionsRef : ∀ gs : List (String × Grammar),
    substituteDefinitions "" .ref gs = gs
  | [] => rfl
  | (name, g) :: gs => by
    rw [substituteDefinitions, substituteRef g, substituteDefinitionsRef gs, String.append_empty]

end

end Grammar

/-- How two runs are compared: each is ahead of a common depth by some, and one of them may fall short
where this is all it has. -/
structure Pace where
  early : Stop → Prop
  late : Stop → Prop
  ahead : Nat
  behind : Nat
  start : ∀ c c' : Closure, (c.run ahead).Agrees early late (fun _ => True) (c'.run behind)

namespace Pace
open Grammar (renamed without suffixFor)

def same : Pace where
  early _ := False
  late _ := False
  ahead := 0
  behind := 0
  start _ _ := Parser.agreesAnywhere _

def below (ahead : Nat) : Pace where
  early := (· = .exhausted)
  late _ := False
  ahead := 0
  behind := ahead
  start _ _ _ _ := .inl ⟨_, rfl, rfl⟩

def above (ahead : Nat) : Pace where
  early _ := False
  late := (· = .exhausted)
  ahead := ahead
  behind := 0
  start _ _ _ _ := .inr (.inl ⟨_, rfl, rfl⟩)

variable (p : Pace) {depth : Nat} {env env' : Environment}

def Keeps (depth : Nat) (g : Grammar) (env : Environment) (g' : Grammar) (env' : Environment) : Prop :=
  (g.meaning (Closure.run (depth + p.ahead)) env).Agrees p.early p.late (fun _ => True)
    (g'.meaning (Closure.run (depth + p.behind)) env')

theorem sameKeeps {g g' : Grammar} : same.Keeps depth g env g' env' ↔
    g.meaning (Closure.run depth) env = g'.meaning (Closure.run depth) env' := by
  constructor
  · exact fun keeps => funext fun input => Run.agreesSame (keeps input trivial)
  · intro equal
    change Parser.Agrees _ _ _ (g.meaning (Closure.run depth) env) _
    exact equal ▸ Parser.agreesAnywhere _

end Pace

def Grammar.Stable (g : Grammar) : Prop := ∀ depth env env',
  (∀ x ∈ g.free, ∀ d ≤ depth, (Grammar.ref x).meaning (Closure.run d) env =
    (Grammar.ref x).meaning (Closure.run d) env') →
  g.meaning (Closure.run depth) env = g.meaning (Closure.run depth) env'

namespace Pace
open Grammar (renamed without suffixFor)

variable (p : Pace) {depth : Nat} {env env' : Environment}

def Tied (depth : Nat) (names : List String) (θ : String → Grammar) (env env' : Environment) : Prop :=
  ∀ x ∈ names, (θ x).Stable ∧ ∀ d ≤ depth, p.Keeps d (.ref x) env (θ x) env'

variable {p}

theorem tiedLess {less : Nat} {names : List String} {θ : String → Grammar} (shallow : less ≤ depth)
    (tied : p.Tied depth names θ env env') : p.Tied less names θ env env' := fun x inside =>
  ⟨(tied x inside).1, fun d within => (tied x inside).2 d (Nat.le_trans within shallow)⟩

theorem tiedFew {names few : List String} {θ : String → Grammar} (fewer : ∀ x ∈ few, x ∈ names)
    (tied : p.Tied depth names θ env env') : p.Tied depth few θ env env' :=
  fun x inside => tied x (fewer x inside)

theorem stableRef (x : String) : (Grammar.ref x).Stable := fun depth _ _ names =>
  names x List.mem_cons_self depth (Nat.le_refl depth)

section Binders

-- Under the binder `inner` is put in place of the names, and `θ` outside of it.
variable {definitions : List (String × Grammar)} {outer : List String} {suffix : String}
  {θ inner : String → Grammar}

theorem keepsOutside {x : String} (outside : x ∉ definitions.map Prod.fst)
    (apart : ∀ name ∈ definitions.map Prod.fst, name ++ suffix ∉ (θ x).free) (stable : (θ x).Stable)
    (keeps : p.Keeps depth (.ref x) env (θ x) env') :
    p.Keeps depth (.ref x) (Environment.defining definitions env) (θ x)
      (Environment.defining (Grammar.substituteDefinitions suffix inner definitions) env') := by
  rw [Keeps, Environment.definingElsewhere outside,
    stable _ _ env' fun y inside d _ => Environment.definingElsewhere (fun taken => ?_) _]
  · exact keeps
  · rw [Grammar.mapSubstituted] at taken
    obtain ⟨d, among, rfl⟩ := List.mem_map.mp taken
    exact apart d.1 (List.mem_map_of_mem among) inside

theorem keepsInside {x : String} (named : x ∈ definitions.map Prod.fst)
    (deeper : ∀ k < depth, ∀ d ∈ definitions,
      p.Keeps k d.2 (Environment.defining definitions env) (d.2.substitute inner)
        (Environment.defining (Grammar.substituteDefinitions suffix inner definitions) env')) :
    p.Keeps depth (.ref x) (Environment.defining definitions env) (.ref (x ++ suffix))
      (Environment.defining (Grammar.substituteDefinitions suffix inner definitions) env') := by
  obtain ⟨d, among, rfl, found⟩ := (Environment.definitionFound definitions x).resolve_right
    (not_not_intro named)
  let definitions' := Grammar.substituteDefinitions suffix inner definitions
  have injective : Function.Injective (· ++ suffix) := fun a b same => by simpa using same
  have first : Table.find? d.1 (Environment.defining definitions env) =
      some (.mk definitions d.2 env) := found id _ env Function.injective_id
  have second : Table.find? (d.1 ++ suffix) (Environment.defining definitions' env') =
      some (.mk definitions' (d.2.substitute inner) env') := by
    have renamed := found _ (fun d => .mk definitions' (d.2.substitute inner) env') env' injective
    rw [← renamed, Environment.defining, Grammar.mapSubstituted]
  unfold Keeps
  rw [Grammar.meaning, Grammar.meaning, first, second, Option.elim_some, Option.elim_some]
  cases depth with
  | zero => simpa only [Nat.zero_add] using p.start _ _
  | succ depth =>
    rw [Nat.add_right_comm depth 1 p.ahead, Nat.add_right_comm depth 1 p.behind]
    exact deeper depth (Nat.lt_succ_self depth) d among

theorem tiedDefining (definitions : List (String × Grammar))
    (under : inner = renamed (definitions.map Prod.fst) suffix θ)
    (tied : p.Tied depth outer θ env env')
    (apart : ∀ x ∈ outer, ∀ name ∈ definitions.map Prod.fst, name ++ suffix ∉ (θ x).free)
    (frees : ∀ d ∈ definitions, ∀ x ∈ d.2.free, x ∈ definitions.map Prod.fst ++ outer)
    (keeps : ∀ d ∈ definitions, ∀ k e e', p.Tied k d.2.free inner e e' →
      p.Keeps k d.2 e (d.2.substitute inner) e') :
    p.Tied depth (definitions.map Prod.fst ++ outer) inner (Environment.defining definitions env)
      (Environment.defining (Grammar.substituteDefinitions suffix inner definitions) env') := by
  induction depth using Nat.strongRecOn with
  | ind depth ih =>
    intro x inside
    by_cases named : x ∈ definitions.map Prod.fst
    · have own : inner x = .ref (x ++ suffix) := by
        rw [under, renamed, if_pos (by simpa using named)]
      refine own ▸ ⟨stableRef _, fun d within => keepsInside named fun k less e among => ?_⟩
      have shallow : k < depth := Nat.lt_of_lt_of_le less within
      exact keeps e among k _ _ (tiedFew (frees e among)
        (ih k shallow (tiedLess (Nat.le_of_lt shallow) tied)))
    · have old := (List.mem_append.mp inside).resolve_left named
      have unchanged : inner x = θ x := by rw [under, renamed, if_neg (by simpa using named)]
      obtain ⟨stable, keep⟩ := tied x old
      exact unchanged ▸ ⟨stable, fun d within => keepsOutside named (apart x old) stable (keep d within)⟩

theorem suffixApart {names free : List String} : ∀ x ∈ free, ∀ name ∈ names,
    name ++ suffixFor names free θ ∉ (θ x).free := fun x inside _ named taken =>
  Grammar.apartTaken named (List.mem_flatMap.mpr ⟨x, inside, taken⟩)

end Binders

theorem memBeneath (names : List String) {free : List String} {x : String} (inside : x ∈ free) :
    x ∈ names ++ without names free := by
  by_cases named : x ∈ names
  · exact List.mem_append_left _ named
  · exact List.mem_append_right _ (Grammar.memWithout.mpr ⟨inside, named⟩)

end Pace

namespace Grammar
open Pace (Tied tiedFew tiedDefining suffixApart memBeneath)

theorem freeDefinition {definitions : List (String × Grammar)} {d : String × Grammar}
    (among : d ∈ definitions) : ∀ x ∈ d.2.free, x ∈ freeOfDefinitions definitions := by
  induction definitions with
  | nil => contradiction
  | cons e definitions ih =>
    intro x inside
    rcases List.mem_cons.mp among with rfl | later
    · exact List.mem_append_left _ inside
    · exact List.mem_append_right _ (ih later x inside)

mutual

theorem substituteKeeps {p : Pace} : ∀ (g : Grammar) {θ : String → Grammar} {depth : Nat}
    {env env' : Environment}, p.Tied depth g.free θ env env' →
      p.Keeps depth g env (g.substitute θ) env'
  | .leaf l, _, _, _, _, _ => l.parser.agreesAnywhere
  | .wrap w body, _, _, _, _, tied => w.parserAgrees fun _ => substituteKeeps body tied
  | .choice members, _, _, _, _, tied => Parser.choiceAgrees (substituteAllKeeps members tied)
  | .sequence members, _, _, _, _, tied => Parser.sequenceAgrees (substituteAllKeeps members tied)
  | .choiceOf n member last, _, _, _, _, tied => by
    have first := substituteKeeps member (tiedFew (fun _ => List.mem_append_left _) tied)
    have second := substituteKeeps last (tiedFew (fun _ => List.mem_append_right _) tied)
    exact Parser.choiceAgrees (List.rel_append (Parser.replicateAgrees n first) (.cons second .nil))
  | .between left middle right, _, _, _, _, tied => by
    simp only [free] at tied
    exact Parser.betweenAgrees (substituteKeeps left (tiedFew (by simp_all) tied))
      (substituteKeeps middle (tiedFew (by simp_all) tied))
      (substituteKeeps right (tiedFew (by simp_all) tied))
  | .block start terminator escape, _, _, _, _, tied => by
    simp only [free] at tied
    exact Parser.blockAgrees (fun _ _ _ => trivial) _
      (substituteKeeps start (tiedFew (by simp_all) tied))
      (substituteKeeps terminator (tiedFew (by simp_all) tied))
      (substituteKeeps escape (tiedFew (by simp_all) tied))
  | .ref name, _, depth, _, _, tied => (tied name List.mem_cons_self).2 depth (Nat.le_refl depth)
  | .recursive name body, θ, depth, env, env', tied => by
    have names := tiedDefining [(name, body)] rfl tied suffixApart
      (List.forall_mem_singleton.mpr fun _ => memBeneath [name])
      (List.forall_mem_singleton.mpr fun _ _ _ => substituteKeeps body)
    have own := (names name List.mem_cons_self).2 depth (Nat.le_refl depth)
    simpa [Pace.Keeps, renamed, meaning, Environment.defining, substituteDefinitions, Table.find?,
      substitute, free] using own
  | .together definitions body, θ, depth, env, env', tied => by
    have names := tiedDefining definitions rfl tied suffixApart
      (fun d among x inside => memBeneath _ (List.mem_append_left _ (freeDefinition among x inside)))
      (substituteDefinitionsKeep definitions _)
    exact substituteKeeps body (tiedFew (fun x inside =>
      memBeneath _ (List.mem_append_right _ inside)) names)

theorem substituteAllKeeps {p : Pace} : ∀ (gs : List Grammar) {θ : String → Grammar} {depth : Nat}
    {env env' : Environment}, p.Tied depth (freeOfAll gs) θ env env' →
      List.Forall₂ (Parser.Agrees p.early p.late fun _ => True)
        (meanings (Closure.run (depth + p.ahead)) env gs)
        (meanings (Closure.run (depth + p.behind)) env' (substituteAll θ gs))
  | [], _, _, _, _, _ => .nil
  | g :: gs, _, _, _, _, tied =>
    .cons (substituteKeeps g (tiedFew (fun _ => List.mem_append_left _) tied))
      (substituteAllKeeps gs (tiedFew (fun _ => List.mem_append_right _) tied))

theorem substituteDefinitionsKeep {p : Pace} : ∀ (gs : List (String × Grammar))
    (θ : String → Grammar), ∀ d ∈ gs, ∀ depth env env', p.Tied depth d.2.free θ env env' →
      p.Keeps depth d.2 env (d.2.substitute θ) env'
  | [], _ => List.forall_mem_nil _
  | (_, g) :: gs, θ =>
    List.forall_mem_cons.mpr ⟨fun _ _ _ => substituteKeeps g, substituteDefinitionsKeep gs θ⟩

end

theorem keepsItself {p : Pace} (g : Grammar) {depth : Nat} {env env' : Environment}
    (names : ∀ x ∈ g.free, ∀ d ≤ depth, p.Keeps d (.ref x) env (.ref x) env') :
    p.Keeps depth g env g env' := by
  have keeps := substituteKeeps g fun x inside => ⟨Pace.stableRef x, names x inside⟩
  rwa [substituteRef] at keeps

theorem stable (g : Grammar) : g.Stable := fun _ _ _ names =>
  Pace.sameKeeps.mp (keepsItself g fun x inside d within =>
    Pace.sameKeeps.mpr (names x inside d within))

theorem tiedStable {p : Pace} {names : List String} {θ : String → Grammar} {depth : Nat}
    {env env' : Environment} (keeps : ∀ x ∈ names, ∀ d ≤ depth, p.Keeps d (.ref x) env (θ x) env') :
    p.Tied depth names θ env env' := fun x inside => ⟨stable _, keeps x inside⟩

theorem substituteMeans (g : Grammar) {θ : String → Grammar} {depth : Nat} {env env' : Environment}
    (names : ∀ x ∈ g.free, ∀ d ≤ depth,
      (ref x).meaning (Closure.run d) env = (θ x).meaning (Closure.run d) env') :
    g.meaning (Closure.run depth) env = (g.substitute θ).meaning (Closure.run depth) env' :=
  Pace.sameKeeps.mp (substituteKeeps g (tiedStable fun x inside d within =>
    Pace.sameKeeps.mpr (names x inside d within)))

-- The binder gives way to the name that is put in.
example : (recursive "x" (.sequence [.ref "x", .ref "y"])).substitute (single "y" (.ref "x")) =
    recursive "x__" (.sequence [.ref "x__", .ref "x"]) := by
  rfl

variable {good : Leaf → Prop}

theorem renamedLeaves {θ : String → Grammar} (put : ∀ x, (θ x).Leaves good) (names : List String)
    (suffix : String) (x : String) : (renamed names suffix θ x).Leaves good := by
  unfold renamed
  split
  · trivial
  · exact put x

mutual

theorem substituteLeaves : ∀ (g : Grammar) {θ : String → Grammar}, g.Leaves good →
    (∀ x, (θ x).Leaves good) → (g.substitute θ).Leaves good
  | .leaf _, _, own, _ => own
  | .wrap _ body, _, own, put => substituteLeaves body own put
  | .choice members, _, own, put => substituteAllLeaves members own put
  | .sequence members, _, own, put => substituteAllLeaves members own put
  | .choiceOf _ member last, _, own, put =>
    ⟨substituteLeaves member own.1 put, substituteLeaves last own.2 put⟩
  | .between left middle right, _, own, put => ⟨substituteLeaves left own.1 put,
    substituteLeaves middle own.2.1 put, substituteLeaves right own.2.2 put⟩
  | .block start terminator escape, _, own, put => ⟨substituteLeaves start own.1 put,
    substituteLeaves terminator own.2.1 put, substituteLeaves escape own.2.2 put⟩
  | .ref name, _, _, put => put name
  | .recursive _ body, _, own, put => substituteLeaves body own (renamedLeaves put _ _)
  | .together definitions body, _, own, put =>
    ⟨substituteDefinitionsLeaves definitions own.1 (renamedLeaves put _ _),
      substituteLeaves body own.2 (renamedLeaves put _ _)⟩

theorem substituteAllLeaves : ∀ (gs : List Grammar) {θ : String → Grammar}, LeavesOfAll good gs →
    (∀ x, (θ x).Leaves good) → LeavesOfAll good (substituteAll θ gs)
  | [], _, _, _ => trivial
  | g :: gs, _, own, put => ⟨substituteLeaves g own.1 put, substituteAllLeaves gs own.2 put⟩

theorem substituteDefinitionsLeaves : ∀ (gs : List (String × Grammar)) {suffix : String}
    {θ : String → Grammar}, LeavesOfDefinitions good gs → (∀ x, (θ x).Leaves good) →
      LeavesOfDefinitions good (substituteDefinitions suffix θ gs)
  | [], _, _, _, _ => trivial
  | (_, g) :: gs, _, _, own, put =>
    ⟨substituteLeaves g own.1 put, substituteDefinitionsLeaves gs own.2 put⟩

end

end Grammar
end Descent
