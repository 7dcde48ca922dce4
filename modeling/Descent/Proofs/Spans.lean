import Descent.Proofs.Erasure
import Descent.Proofs.Lifetimes
import Descent.Proofs.Visits
/-!
The spans of a run. A run that gives an answer closes each of its spans behind one report of what was found
in it. A run that stops closes the spans that are open then, the innermost first, without a report, and
writes nothing more.
-/
namespace Descent

/-- What a span reports of an answer: how many bytes of the input are not left and how many values were
produced, or how many bytes the input has. -/
inductive Reports (input : Text) : Option (Match Value) → Event → Prop
  | matched {m : Match Value} {n : Nat} (used : input.byteLength = n + m.rest.byteLength) :
      Reports input (some m) (.matched n m.produced.length)
  | unmatched : Reports input none (.unmatched input.byteLength)

inductive Closed (invoked : String → Text → Run (Option (Match Value)) → Prop) : Journal → Prop
  | nothing : Closed invoked []
  | span {label input inside found told later} (inner : Closed invoked inside)
      (run : invoked label input ⟨inside, .ok found⟩) (reports : Reports input found told)
      (after : Closed invoked later) :
      Closed invoked (.enter label :: (inside ++ told :: .exit label :: later))

/-- The journal of a run that stops. Behind spans that are closed the run stops, or a span is entered that
it stops in. Only where more is left than there was, the report of a span is what stops the run. -/
inductive Broken (invoked : String → Text → Run (Option (Match Value)) → Prop) : Stop → Journal → Prop
  | here {s before} (closed : Closed invoked before) : Broken invoked s before
  | span {s before label input inside} (closed : Closed invoked before)
      (inner : Broken invoked s inside) (run : invoked label input ⟨inside, .error s⟩) :
      Broken invoked s (before ++ .enter label :: (inside ++ [.exit label]))
  | unreported {before label input inside m} (closed : Closed invoked before)
      (inner : Closed invoked inside) (run : invoked label input ⟨inside, .ok (some m)⟩)
      (longer : input.byteLength < m.rest.byteLength) :
      Broken invoked (.panic .foreignInput) (before ++ .enter label :: (inside ++ [.exit label]))

def Consumes (invoked : String → Text → Run (Option (Match Value)) → Prop) : Prop :=
  ∀ label input journal m, invoked label input ⟨journal, .ok (some m)⟩ →
    ∃ used, input = used ++ m.rest ∧
      ∀ told, Reports input (some m) told → told = .matched used.byteLength m.produced.length

namespace Journal

def closes : List String → Journal → Bool
  | opened, [] => opened.isEmpty
  | opened, .enter label :: later => closes (label :: opened) later
  | [], .exit _ :: _ => false
  | label :: opened, .exit other :: later => label == other && closes opened later
  | opened, _ :: later => closes opened later

end Journal

variable {invoked : String → Text → Run (Option (Match Value)) → Prop}

theorem Reports.closes {input : Text} {found : Option (Match Value)} {told : Event}
    (reports : Reports input found told) (opened : List String) (later : Journal) :
    Journal.closes opened (told :: later) = Journal.closes opened later := by
  cases reports <;> rfl

namespace Closed

variable {before after : Journal}

theorem append (first : Closed invoked before) (second : Closed invoked after) :
    Closed invoked (before ++ after) := by
  induction first with
  | nothing => exact second
  | span inner run reports _ _ ih =>
    simpa using Closed.span inner run reports ih

theorem closes (closed : Closed invoked before) (opened : List String) (later : Journal) :
    Journal.closes opened (before ++ later) = Journal.closes opened later := by
  induction closed generalizing opened later with
  | nothing => rfl
  | span inner run reports after inside rest =>
    simp [Journal.closes, inside, reports.closes, rest]

end Closed

namespace Broken

variable {s : Stop} {before after : Journal}

theorem behind (first : Closed invoked before) (broken : Broken invoked s after) :
    Broken invoked s (before ++ after) := by
  cases broken with
  | here closed => exact .here (first.append closed)
  | span closed inner run =>
    rw [← List.append_assoc]
    exact .span (first.append closed) inner run
  | unreported closed inner run longer =>
    rw [← List.append_assoc]
    exact .unreported (first.append closed) inner run longer

theorem closes (broken : Broken invoked s before) (opened : List String) (later : Journal) :
    Journal.closes opened (before ++ later) = Journal.closes opened later := by
  induction broken generalizing opened later with
  | here closed => exact closed.closes opened later
  | span closed inner run ih => simp [closed.closes, Journal.closes, ih]
  | unreported closed inner run longer => simp [closed.closes, Journal.closes, inner.closes]

end Broken

namespace Run

variable {α β : Type} {r : Run α}

def Nested (invoked : String → Text → Run (Option (Match Value)) → Prop) (r : Run α) : Prop :=
  match r.ending with
  | .ok _ => Closed invoked r.journal
  | .error s => Broken invoked s r.journal

theorem nestedCloses (nested : r.Nested invoked) : Journal.closes [] r.journal = true := by
  obtain ⟨journal, ending⟩ := r
  rw [← List.append_nil journal]
  cases ending with
  | ok a => exact Closed.closes nested [] []
  | error s => exact Broken.closes nested [] []

theorem nestedQuiet (quiet : r.journal = []) : r.Nested invoked := by
  obtain ⟨journal, ending⟩ := r
  cases quiet
  cases ending with
  | ok a => exact .nothing
  | error s => exact .here .nothing

theorem nestedPure (a : α) : (pure a : Run α).Nested invoked := nestedQuiet rfl

theorem nestedBind {next : α → Run β} (first : r.Nested invoked)
    (rest : ∀ a, r.ending = .ok a → (next a).Nested invoked) : (r >>= next).Nested invoked := by
  obtain ⟨before, ending⟩ := r
  cases ending with
  | error s => exact first
  | ok a =>
    have later := rest a rfl
    rw [bindOk]
    generalize next a = after at later
    obtain ⟨journal, ending⟩ := after
    cases ending with
    | ok b => exact Closed.append first later
    | error s => exact Broken.behind first later

theorem nestedThen (f : α → β) :
    (r >>= fun a => pure (f a)).Nested invoked ↔ r.Nested invoked := by
  obtain ⟨journal, ending⟩ := r
  cases ending with
  | ok a => simp [bindOk, pureEq, behind, Nested]
  | error s => exact Iff.rfl

end Run

namespace Parser

variable {p : Parser Value} {label : String} {input : Text}

theorem tracedNested (inner : (p input).Nested invoked) (run : invoked label input (p input)) :
    (traced label p input).Nested invoked := by
  rw [tracedRun]
  generalize p input = r at inner run
  obtain ⟨inside, ending⟩ := r
  cases ending with
  | error s => exact Broken.span .nothing inner run
  | ok found =>
    cases found with
    | none => exact Closed.span inner run .unmatched .nothing
    | some m =>
      rcases Nat.lt_or_ge input.byteLength m.rest.byteLength with longer | fits
      · have stops : report input (some m) = Run.panic .foreignInput := by
          simp [report, Match.consumed, Nat.not_le.mpr longer]
        simp only [reported, checked, stops]
        exact Broken.unreported .nothing inner run longer
      · have records : report input (some m) =
            Run.record (.matched (input.byteLength - m.rest.byteLength) m.produced.length) := by
          simp [report, Match.consumed, fits]
        simp only [reported, checked, records]
        exact Closed.span inner run (.matched (Nat.sub_add_cancel fits).symm) .nothing

end Parser

namespace Store

variable {σ : Store} {live : List Nat} {root : Visit}

def Invokes (σ : Store) (live : List Nat) (root : Visit) (label : String) (input : Text)
    (run : Run (Option (Match Value))) : Prop :=
  ∃ body depth, Relation.ReflTransGen (σ.Calls live) root ⟨.wrap (.traced label) body, input⟩ ∧
    body.parser (σ.invoke live depth) input = run

def Nests (σ : Store) (live : List Nat) (root : Visit) (depth : Nat) (v : Visit) : Prop :=
  Relation.ReflTransGen (σ.Calls live) root v →
    ((v.rule.parser (σ.invoke live depth)) v.input).Nested (σ.Invokes live root)

theorem onceNests {depth : Nat} {w : Wrapper} {body : Rule} {input : Text}
    (once : w.runsOnce = true) (inner : σ.Nests live root depth ⟨body, input⟩) :
    σ.Nests live root depth ⟨.wrap w body, input⟩ := by
  intro reached
  have inside := inner (reached.tail (.body once))
  cases w with
  | many => contradiction
  | many1 => contradiction
  | times n => contradiction
  | traced label => exact Parser.tracedNested inside ⟨body, depth, reached, rfl⟩
  | notAhead => exact Run.nestedBind inside fun found _ => by cases found <;> exact Run.nestedPure _
  | _ => exact (Run.nestedThen _).mpr inside

theorem manyNests {depth : Nat} {body : Rule} {input : Text}
    (turn : σ.Nests live root depth ⟨body, input⟩)
    (again : ∀ m, (body.parser (σ.invoke live depth)).Yields input (some m) →
      m.rest.byteLength < input.byteLength → σ.Nests live root depth ⟨.wrap .many body, m.rest⟩) :
    σ.Nests live root depth ⟨.wrap .many body, input⟩ := by
  intro reached
  apply (Run.nestedThen _).mpr
  rw [Parser.repeated]
  apply Run.nestedBind (turn (reached.tail .turn))
  intro found ended
  cases found with
  | none => exact Run.nestedPure _
  | some m =>
    dsimp only
    split
    · rename_i shrinks
      -- The repetition from the rest on is a parser of its own, which changes the answer once more.
      have later := again m ended shrinks (reached.tail (.again ⟨depth, ended⟩ shrinks))
      exact (Run.nestedThen _).mpr ((Run.nestedThen _).mp later)
    · exact Run.nestedQuiet rfl

theorem memberNests {depth : Nat} {rule : Rule} {rules : List Rule} {input : Text}
    (first : σ.Nests live root depth ⟨rule, input⟩)
    (otherwise : (rule.parser (σ.invoke live depth)).Yields input none →
      σ.Nests live root depth ⟨.choice rules, input⟩) :
    σ.Nests live root depth ⟨.choice (rule :: rules), input⟩ := by
  intro reached
  apply Run.nestedBind (first (reached.tail .member))
  intro found ended
  cases found with
  | none => exact otherwise ended (reached.tail (.otherwise ⟨depth, ended⟩))
  | some m => exact Run.nestedPure _

theorem stepNests {depth : Nat} {rule : Rule} {rules : List Rule} {input : Text}
    (first : σ.Nests live root depth ⟨rule, input⟩)
    (next : ∀ m, (rule.parser (σ.invoke live depth)).Yields input (some m) →
      σ.Nests live root depth ⟨.sequence rules, m.rest⟩) :
    σ.Nests live root depth ⟨.sequence (rule :: rules), input⟩ := by
  intro reached
  apply Run.nestedBind (first (reached.tail .first))
  intro found ended
  cases found with
  | none => exact Run.nestedPure _
  | some m =>
    apply Run.nestedBind (next m ended (reached.tail (.next ⟨depth, ended⟩)))
    intro found _
    cases found <;> exact Run.nestedPure _

theorem nestsHereditary : σ.Hereditary live (fun _ => True) (σ.Nests live root) where
  scalar := trivial
  leaf {_ l input} _ _ := Run.nestedQuiet (l.parserQuiet input)
  spelled short inner reached := by
    dsimp only
    rw [← Rule.spelledParser _ short]
    exact inner (reached.tail (.spelled short))
  once := onceNests
  many _ := manyNests
  noMember _ := Run.nestedPure _
  member := memberNests
  noStep _ := Run.nestedPure _
  step := stepNests
  exhausted _ := Run.nestedQuiet rfl
  lost failed _ := by
    simp only [Rule.parser, invoke, failed]
    exact Run.nestedQuiet rfl
  refer resolved inner reached := by
    simp only [Rule.parser, invoke, resolved]
    exact inner (reached.tail (.refer resolved))

theorem parserNested (σ : Store) (alive : List Rule) (rule : Rule) (input : Text) :
    (σ.parser alive rule input).Nested (σ.Invokes (σ.owned alive) ⟨rule, input⟩) := by
  have any (rule : Rule) : rule.Leaves fun _ => True := rule.leavesAll fun _ => trivial
  exact nestsHereditary.everywhere (fun rule _ => any rule) (any rule) _ input .refl

theorem invokesConsume (leaves : σ.Leaves Leaf.LeavesEnd) (own : root.rule.Leaves Leaf.LeavesEnd) :
    Consumes (σ.Invokes live root) := by
  intro label input journal m invokes
  obtain ⟨body, depth, reached, run⟩ := invokes
  have kept : body.Leaves Leaf.LeavesEnd := reachedLeaves trivial leaves reached own
  have ends := body.parserEnd (invokeEnd leaves live depth) kept
  obtain ⟨used, splits, -⟩ := Parser.leftoverSplits ends (congrArg Run.ending run)
  refine ⟨used, splits, fun told reports => ?_⟩
  cases reports with
  | matched bytes =>
    rw [splits, Text.byteLengthAppend] at bytes
    rw [Nat.add_right_cancel bytes]

end Store

def Grammar.Invokes (g : Grammar) (input : Text) : String → Text → Run (Option (Match Value)) → Prop :=
  g.assembled.store.Invokes g.alive ⟨g.assembled.rule, input⟩

namespace Session

variable {s : Session} {name : String} {p : Parser Value}

theorem parserNamed (named : s.parser? name = some p) : ∃ rule, p = s.parserOf rule ∧
    ∀ {good : Leaf → Prop}, s.Leaves good → rule.Leaves good := by
  unfold parser? at named
  split at named
  · rename_i rule found
    cases named
    exact ⟨rule, rfl, fun leaves => leaves.held rule (List.mem_map_of_mem (Table.memOfFind found))⟩
  · cases named
    exact ⟨_, rfl, fun _ => trivial⟩
  · contradiction

end Session

/-- Nothing is in the journal of a parse but spans as in `Closed` and `Broken`, whatever panics, and also
where a run never ends. The parser may be that of a grammar, or one that a session has a name for. -/
theorem spansAreNested (input : Text) :
    (∀ g : Grammar, (g.parser input).Nested (g.Invokes input) ∧
      Journal.closes [] (g.parser input).journal = true ∧
      (g.Leaves Leaf.LeavesEnd → Consumes (g.Invokes input))) ∧
    ∀ (steps : List Step) (name : String) (p : Parser Value),
      let s := Session.empty.after steps
      s.parser? name = some p → ∃ rule, let invokes := s.store.Invokes s.live ⟨rule, input⟩
        (p input).Nested invokes ∧ Journal.closes [] (p input).journal = true ∧
        ((∀ step ∈ steps, step.Leaves Leaf.LeavesEnd) → Consumes invokes) := by
  constructor
  · intro g
    have nested : (g.parser input).Nested (g.Invokes input) := Store.parserNested _ _ _ input
    refine ⟨nested, Run.nestedCloses nested, fun own => ?_⟩
    obtain ⟨ruleEnds, leaves⟩ := Grammar.assembledLeaves own trivial
    exact Store.invokesConsume leaves ruleEnds
  · intro steps name p s named
    obtain ⟨rule, rfl, held⟩ := Session.parserNamed named
    have nested : (s.parserOf rule input).Nested (s.store.Invokes s.live ⟨rule, input⟩) :=
      Store.parserNested _ _ _ input
    refine ⟨rule, nested, Run.nestedCloses nested, fun own => ?_⟩
    have leaves : s.Leaves Leaf.LeavesEnd := Session.afterLeaves trivial Session.emptyLeaves own
    exact Store.invokesConsume leaves.store (held leaves)

theorem stalledSpansAreNested :
    let g : Grammar := .wrap (.traced "outer") (.sequence [.wrap (.traced "one") (.literal "é"),
      .wrap .notAhead (.wrap (.traced "inner") (.wrap .many (.leaf .succeed)))])
    let input : Text := "é".toList
    g.Leaves Leaf.LeavesEnd ∧ Consumes (g.Invokes input) ∧
    (g.parser input).Nested (g.Invokes input) ∧
    (g.parser input).journal = [.enter "outer", .enter "one", .matched 2 1, .exit "one",
      .enter "inner", .exit "inner", .exit "outer"] := by
  intro g input
  have own : g.Leaves Leaf.LeavesEnd := by
    repeat' constructor
  obtain ⟨nested, -, consumes⟩ := (spansAreNested input).1 g
  refine ⟨own, consumes own, nested, ?_⟩
  decide +kernel

end Descent
