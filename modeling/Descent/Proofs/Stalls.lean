import Descent.Proofs.Words
import Descent.Proofs.Termination
import Descent.Proofs.Visits
/-!
Why a run panics. Where a grammar of its own is run, all that is referred to is defined and alive. So the
one panic is that of a repetition, and it is there just when the run comes to a repetition whose body
matches and leaves as much as it was given.
-/
namespace Descent

namespace Parser

variable {α β : Type} {p : Parser α} {ps : List (Parser α)} {input : Text}

def Stalls (p : Parser α) (input : Text) : Prop := (p input).ending = .error (.panic .stalledRepetition)

theorem stallsNever {n k : Nat} (advances : p.Advances n k) (short : input.length ≤ n) :
    ¬ p.Stalls input := by
  obtain ⟨found, ended⟩ := advancesAnswers advances short
  simp [Stalls, ended]

theorem Advances.within {stopped : Stop → Prop} {k : Nat} (advances : ∀ n, p.Advances n k) :
    p.Within stopped Language.every := by
  intro n input short
  obtain ⟨found, ended, splits⟩ := Run.endsTotal (advances n input short)
  rw [Run.Ends, ended]
  intro m same
  obtain ⟨w, split, -⟩ := splits m same
  exact ⟨w, split, trivial⟩

theorem choiceStallsIff : (choice (p :: ps)).Stalls input ↔
    p.Stalls input ∨ p.Yields input none ∧ (choice ps).Stalls input := by
  refine Run.errorOfBind.trans (or_congr_right ⟨?_, fun later => ⟨none, later⟩⟩)
  rintro ⟨found, ended, stalls⟩
  cases found with
  | none => exact ⟨ended, stalls⟩
  | some m => simp [Run.pureEq] at stalls

theorem sequenceStallsIff : (sequence (p :: ps)).Stalls input ↔
    p.Stalls input ∨ ∃ m, p.Yields input (some m) ∧ (sequence ps).Stalls m.rest := by
  refine Run.errorOfBind.trans (or_congr_right ⟨?_, ?_⟩)
  · rintro ⟨found, ended, stalls⟩
    cases found with
    | none => simp [Run.pureEq] at stalls
    | some m =>
      rcases Run.errorOfBind.mp stalls with later | ⟨next, -, joined⟩
      · exact ⟨m, ended, later⟩
      · cases next <;> simp [Run.pureEq] at joined
  · rintro ⟨m, here, later⟩
    exact ⟨some m, here, Run.errorOfBind.mpr (.inl later)⟩

theorem manyStallsIff : (many p).Stalls input ↔ p.Stalls input ∨
    ∃ m, p.Yields input (some m) ∧ (m.rest.byteLength < input.byteLength → (many p).Stalls m.rest) := by
  have asRepeated : ∀ t, (many p).Stalls t ↔
      (repeated p t).ending = .error (.panic .stalledRepetition) := fun t =>
    Run.errorOfBind.trans (by simp [Run.pureEq])
  simp only [asRepeated]
  rw [repeated]
  refine Run.errorOfBind.trans (or_congr_right ⟨?_, ?_⟩)
  · rintro ⟨found, ended, stalls⟩
    cases found with
    | none => simp [Run.pureEq] at stalls
    | some m =>
      refine ⟨m, ended, fun shrinks => ?_⟩
      simp only [dif_pos shrinks] at stalls
      rcases Run.errorOfBind.mp stalls with later | ⟨next, -, joined⟩
      · exact later
      · simp [Run.pureEq] at joined
  · rintro ⟨m, here, later⟩
    refine ⟨some m, here, ?_⟩
    by_cases shrinks : m.rest.byteLength < input.byteLength
    · simp only [dif_pos shrinks]
      exact Run.errorOfBind.mpr (.inl (later shrinks))
    · simp only [dif_neg shrinks]
      rfl

theorem refineStallsIff {f : Match α → Option (Match β)} :
    (refine f p).Stalls input ↔ p.Stalls input :=
  Run.errorOfBind.trans (by simp [Run.pureEq, Stalls])

theorem notAheadStallsIff : (notAhead p : Parser β).Stalls input ↔ p.Stalls input := by
  refine Run.errorOfBind.trans (or_iff_left ?_)
  rintro ⟨found, -, stalls⟩
  cases found <;> simp [Run.pureEq] at stalls

theorem tracedStallsIff (label : String) : (traced label p).Stalls input ↔ p.Stalls input := by
  have inside : (do let found ← p input; report input found; pure found : Run _).ending =
      .error (.panic .stalledRepetition) ↔ p.Stalls input := by
    refine Run.errorOfBind.trans (or_iff_left ?_)
    rintro ⟨found, -, stalls⟩
    rcases Run.errorOfBind.mp stalls with reported | ⟨_, -, kept⟩
    · -- A report has its own panic.
      cases found with
      | none => simp [report, Run.record] at reported
      | some m =>
        simp only [report, Match.consumed] at reported
        by_cases fits : m.rest.byteLength ≤ input.byteLength
        · simp [if_pos fits, Run.record] at reported
        · simp [if_neg fits, Run.panic, Run.stop] at reported
    · simp [Run.pureEq] at kept
  exact inside

end Parser

theorem Wrapper.stallsIff {w : Wrapper} (once : w.runsOnce = true) {p : Parser Value} {input : Text} :
    (w.parser p).Stalls input ↔ p.Stalls input := by
  cases w with
  | many => contradiction
  | many1 => contradiction
  | map f => exact Parser.refineStallsIff
  | mapAll f => exact Parser.refineStallsIff
  | mapAll? f => exact Parser.refineStallsIff
  | fold f seed => exact Parser.refineStallsIff
  | fold? f seed => exact Parser.refineStallsIff
  | notAhead => exact Parser.notAheadStallsIff
  | skip => exact Parser.refineStallsIff
  | whole => exact Parser.refineStallsIff
  | traced label => exact Parser.tracedStallsIff label
  | times n => contradiction

namespace Store

/-- A repetition whose body matches and leaves as much as it was given. -/
def Idles (σ : Store) (live : List Nat) (v : Visit) : Prop :=
  ∃ body m, v.rule = .wrap .many body ∧ σ.Finds live body v.input (some m) ∧
    m.rest.byteLength = v.input.byteLength

def ComesToIdle (σ : Store) (live : List Nat) (v : Visit) : Prop :=
  ∃ q, Relation.ReflTransGen (σ.Calls live) v q ∧ σ.Idles live q

variable {σ : Store} {live : List Nat} {rule : Rule} {rules : List Rule} {input : Text}
  {found : Option (Match Value)} {depth : Nat} {v : Visit}

theorem comesBy {q : Visit} (calls : σ.Calls live v q) (comes : σ.ComesToIdle live q) :
    σ.ComesToIdle live v := by
  obtain ⟨last, reaches, idles⟩ := comes
  exact ⟨last, .head calls reaches, idles⟩

def Explains (σ : Store) (live : List Nat) (depth : Nat) (v : Visit) : Prop :=
  (v.rule.parser (σ.invoke live depth)).Stalls v.input → σ.ComesToIdle live v

theorem explainsMany (leaves : σ.Leaves Leaf.LeavesEnd) {body : Rule} (own : body.Leaves Leaf.LeavesEnd)
    (turn : σ.Explains live depth ⟨body, input⟩)
    (again : ∀ m, (body.parser (σ.invoke live depth)).Yields input (some m) →
      m.rest.byteLength < input.byteLength → σ.Explains live depth ⟨.wrap .many body, m.rest⟩) :
    σ.Explains live depth ⟨.wrap .many body, input⟩ := by
  intro stalls
  rcases Parser.manyStallsIff.mp stalls with inside | ⟨m, found, later⟩
  · exact comesBy .turn (turn inside)
  · by_cases shrinks : m.rest.byteLength < input.byteLength
    · exact comesBy (.again ⟨depth, found⟩ shrinks) (again m found shrinks (later shrinks))
    · have ends := body.parserEnd (invokeEnd leaves live depth) own
      have same := Nat.le_antisymm (Parser.leftoverFits ends found) (Nat.le_of_not_lt shrinks)
      exact ⟨_, .refl, body, m, rfl, ⟨depth, found⟩, same⟩

theorem explainsHereditary (leaves : σ.Leaves Leaf.LeavesEnd) :
    σ.Hereditary live Leaf.LeavesEnd (σ.Explains live) where
  scalar := trivial
  leaf own stalls := absurd stalls
    (Parser.stallsNever (Leaf.parserAdvances own) (Nat.le_refl _))
  spelled short inner stalls := by
    dsimp only at stalls
    rw [← Rule.spelledParser _ short] at stalls
    exact comesBy (.spelled short) (inner stalls)
  once once inner stalls := comesBy (.body once) (inner ((Wrapper.stallsIff once).mp stalls))
  many := explainsMany leaves
  noMember stalls := by cases stalls
  member {depth _ _ _} first otherwise stalls := by
    rcases Parser.choiceStallsIff.mp stalls with here | ⟨missed, later⟩
    · exact comesBy .member (first here)
    · exact comesBy (.otherwise ⟨depth, missed⟩) (otherwise missed later)
  noStep stalls := by cases stalls
  step {depth _ _ _} first next stalls := by
    rcases Parser.sequenceStallsIff.mp stalls with here | ⟨m, found, later⟩
    · exact comesBy .first (first here)
    · exact comesBy (.next ⟨depth, found⟩) (next m found later)
  exhausted stalls := by cases stalls
  lost failed stalls := by
    -- A reference that leads nowhere panics for another cause.
    rcases resolveCause failed with rfl | rfl <;>
      simp [Parser.Stalls, Rule.parser, invoke, failed, Run.panic, Run.stop] at stalls
  refer resolved inner stalls := by
    simp only [Parser.Stalls, Rule.parser, invoke, resolved] at stalls
    exact comesBy (.refer resolved) (inner stalls)

def Stalls (σ : Store) (live : List Nat) (v : Visit) : Prop :=
  ∃ depth, (v.rule.parser (σ.invoke live depth)).Stalls v.input

theorem yieldsDeeper {deeper : Nat} (more : depth ≤ deeper)
    (yields : (rule.parser (σ.invoke live depth)).Yields input found) :
    (rule.parser (σ.invoke live deeper)).Yields input found := by
  rw [Parser.Yields, parserDeeper rule more (Run.answerEnds yields)]
  exact yields

theorem stallsDeeper {deeper : Nat} (more : depth ≤ deeper)
    (stalls : (rule.parser (σ.invoke live depth)).Stalls input) :
    (rule.parser (σ.invoke live deeper)).Stalls input := by
  have ends : ¬ (rule.parser (σ.invoke live depth) input).Exhausted := by
    rw [Run.Exhausted, show _ = _ from stalls]
    simp
  rw [Parser.Stalls, parserDeeper rule more ends]
  exact stalls

theorem joinDepths {other : Rule} {rest : Text} (finds : σ.Finds live rule input found)
    (stalled : σ.Stalls live ⟨other, rest⟩) : ∃ depth,
      (rule.parser (σ.invoke live depth)).Yields input found ∧
        (other.parser (σ.invoke live depth)).Stalls rest := by
  obtain ⟨before, found⟩ := finds
  obtain ⟨after, stalled⟩ := stalled
  exact ⟨max before after, yieldsDeeper (Nat.le_max_left ..) found,
    stallsDeeper (Nat.le_max_right ..) stalled⟩

theorem idleStalls (idles : σ.Idles live v) : σ.Stalls live v := by
  obtain ⟨rule, input⟩ := v
  obtain ⟨body, m, same, ⟨depth, found⟩, length⟩ := idles
  dsimp only at same length
  subst same
  exact ⟨depth, Parser.manyStallsIff.mpr (.inr ⟨m, found, fun shrinks => absurd length shrinks.ne⟩)⟩

theorem callerStalls {q : Visit} (calls : σ.Calls live v q) (stalls : σ.Stalls live q) :
    σ.Stalls live v := by
  cases calls with
  | spelled short =>
    obtain ⟨depth, stalled⟩ := stalls
    exact ⟨depth, by rwa [← Rule.spelledParser _ short]⟩
  | body once =>
    obtain ⟨depth, stalled⟩ := stalls
    exact ⟨depth, (Wrapper.stallsIff once).mpr stalled⟩
  | turn =>
    obtain ⟨depth, stalled⟩ := stalls
    exact ⟨depth, Parser.manyStallsIff.mpr (.inl stalled)⟩
  | again finds _ =>
    obtain ⟨depth, found, stalled⟩ := joinDepths finds stalls
    exact ⟨depth, Parser.manyStallsIff.mpr (.inr ⟨_, found, fun _ => stalled⟩)⟩
  | member =>
    obtain ⟨depth, stalled⟩ := stalls
    exact ⟨depth, Parser.choiceStallsIff.mpr (.inl stalled)⟩
  | otherwise missed =>
    obtain ⟨depth, found, stalled⟩ := joinDepths missed stalls
    exact ⟨depth, Parser.choiceStallsIff.mpr (.inr ⟨found, stalled⟩)⟩
  | first =>
    obtain ⟨depth, stalled⟩ := stalls
    exact ⟨depth, Parser.sequenceStallsIff.mpr (.inl stalled)⟩
  | next finds =>
    obtain ⟨depth, found, stalled⟩ := joinDepths finds stalls
    exact ⟨depth, Parser.sequenceStallsIff.mpr (.inr ⟨_, found, stalled⟩)⟩
  | refer resolved =>
    obtain ⟨depth, stalled⟩ := stalls
    refine ⟨depth + 1, ?_⟩
    rw [Parser.Stalls, Rule.parser, invoke, resolved]
    exact stalled

theorem comesStalls (comes : σ.ComesToIdle live v) : σ.Stalls live v := by
  obtain ⟨q, reaches, idles⟩ := comes
  induction reaches using Relation.ReflTransGen.head_induction_on with
  | refl => exact idleStalls idles
  | head calls _ ih => exact callerStalls calls ih

theorem stallsIff (leaves : σ.Leaves Leaf.LeavesEnd) (own : rule.Leaves Leaf.LeavesEnd) :
    (rule.parser (σ.invoke live (σ.depthBound input))).Stalls input ↔
      σ.ComesToIdle live ⟨rule, input⟩ := by
  constructor
  · exact (explainsHereditary leaves).everywhere leaves own _ input
  · intro comes
    obtain ⟨depth, stalls⟩ := comesStalls comes
    have ends : ¬ (rule.parser (σ.invoke live depth) input).Exhausted := by
      rw [Run.Exhausted, show _ = _ from stalls]
      simp
    rw [Parser.Stalls, depthSuffices leaves own ends]
    exact stalls

end Store

namespace Grammar

theorem stallsOrExhausts {g : Grammar} (own : g.Leaves Leaf.LeavesEnd) :
    g.parser.Within (fun s => s = .panic .stalledRepetition ∨ s = .exhausted) Language.every := by
  refine parserWithin ?_ (madeAnyhow g own)
  exact {
    joins := Language.everyJoins
    stalls := .inl rfl
    exhausts := .inr rfl
    scalar := trivial
    leaves := fun _ ends => Parser.Advances.within fun _ => Leaf.parserAdvances ends
    wrappers := fun w _ => w.keepsEvery }

/-- No grammar that is run on its own panics for a handle, whatever it refers to: a name that nothing
bears is no handle. It panics where its run comes to a repetition, or to the content of a block, whose
body matches and leaves as much as it was given, however far inside and behind whatever would take a
failure to match for an answer. A run that never ends is `exhausted`, which is no panic. -/
theorem panicsWhereARepetitionIdles {g : Grammar} (own : g.Leaves Leaf.LeavesEnd) (input : Text) :
    (∀ cause, (g.parser input).ending = .error (.panic cause) → cause = .stalledRepetition) ∧
    ((g.parser input).ending = .error (.panic .stalledRepetition) ↔
      ∃ v, g.Visits input v ∧ g.assembled.store.Idles g.alive v) ∧
    ∀ s, (parseAll g.parser input).ending = .error s ↔ (g.parser input).ending = .error s := by
  obtain ⟨ruleEnds, leaves⟩ := assembledLeaves own trivial
  refine ⟨fun cause panics => ?_, g.assembled.store.stallsIff leaves ruleEnds, fun _ => parseAllStops fun m =>
    Parser.leftoverFits (parserEnd own)⟩
  have stopped := Run.endsStopped (stallsOrExhausts own input.length input (Nat.le_refl _)) panics
  rcases stopped with stalls | exhausts
  · exact Stop.panic.inj stalls
  · contradiction

theorem idleReferencePanics :
    let g : Grammar := .together [("blank", .choice [literal " ", .leaf .succeed])]
      (.wrap .notAhead (.wrap .many (.ref "blank")))
    g.Leaves Leaf.LeavesEnd ∧ (parseAll g.parser "x".toList).ending = .error (.panic .stalledRepetition) := by
  intro g
  have own : g.Leaves Leaf.LeavesEnd := by
    repeat' constructor
  obtain ⟨-, stalls, whole⟩ := panicsWhereARepetitionIdles own "x".toList
  refine ⟨own, (whole _).mpr (stalls.mpr ?_)⟩
  refine ⟨⟨.wrap .many (.refer (.owner 0)), ['x']⟩, .single (.body rfl), ?_⟩
  exact ⟨_, ⟨['x'], []⟩, rfl, ⟨1, rfl⟩, rfl⟩

end Grammar
end Descent
