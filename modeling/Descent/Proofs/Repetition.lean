import Descent.Proofs.Within
import Descent.Proofs.Outcome
/-!
Repetition of any parser whose matches leave ends of their texts. It goes on by turns, each of which
leaves less than it was given, and what it makes of its text is decided where no turn follows. Hence it
is the choice of one turn with itself behind, and of nothing.
-/
namespace Descent

theorem Run.bindAlike {α β : Type} {r : Run α} {next other : α → Run β}
    (same : ∀ a, r.ending = .ok a → next a = other a) : (r >>= next) = (r >>= other) := by
  obtain ⟨journal, ending⟩ := r
  cases ending with
  | error s => rfl
  | ok a => rw [bindOk, bindOk, same a rfl]

namespace Parser

variable {α : Type}

inductive Turns (p : Parser α) : Text → List α → Text → Prop
  | done {t} : Turns p t [] t
  | turn {t m values last} (found : p.Yields t (some m)) (shrinks : m.rest.byteLength < t.byteLength)
      (others : Turns p m.rest values last) : Turns p t (m.produced ++ values) last

def Breaks (p : Parser α) (t : Text) (s : Stop) : Prop :=
  (p t).ending = .error s ∨ (∃ m, p.Yields t (some m) ∧ m.rest = t) ∧ s = .panic .stalledRepetition

def Halts (p : Parser α) (t : Text) : Prop :=
  p.Yields t none ∨ ∃ s, p.Breaks t s

variable {p : Parser α} {t input last : Text} {values : List α} {m : Match α} {s : Stop}

theorem manyRun (p : Parser α) (input : Text) : many p input = p input >>= fun found =>
    found.elim (pure (some ⟨input, []⟩)) fun m =>
      if m.rest.byteLength < input.byteLength then
        repeated p m.rest >>= fun o => pure (some ⟨o.rest, m.produced ++ o.produced⟩)
      else Run.panic .stalledRepetition := by
  unfold many
  rw [repeated, bind_assoc]
  congr 1
  funext found
  cases found with
  | none => exact Run.pureBind _ _
  | some m =>
    by_cases shrinks : m.rest.byteLength < input.byteLength
    · simp only [dif_pos shrinks, Option.elim_some, if_pos shrinks, bind_assoc, pure_bind]
    · simp only [dif_neg shrinks, Option.elim_some, if_neg shrinks]
      rfl

theorem unrolledRun (p : Parser α) (input : Text) : choice [sequence [p, many p], succeed] input =
    p input >>= fun found => found.elim (pure (some ⟨input, []⟩)) fun m =>
      repeated p m.rest >>= fun o => pure (some ⟨o.rest, m.produced ++ o.produced⟩) := by
  simp only [choice, sequence, many, bind_assoc, pure_bind]
  congr 1
  funext found
  cases found with
  | none => rfl
  | some m => simp

theorem suffixShrinks (suffix : t <:+ input) (other : t ≠ input) : t.byteLength < input.byteLength :=
  Text.byteLengthShorter suffix
    (Nat.lt_of_le_of_ne suffix.length_le fun length => other (suffix.eq_of_length length))

theorem manyMatches : ¬ (many p).Yields input none := by
  intro missed
  obtain ⟨o, -, ended⟩ := Run.bindEnding missed
  cases ended

theorem repeatedBreaks (breaks : p.Breaks t s) : (repeated p t).ending = .error s := by
  rw [repeated]
  rcases breaks with stops | ⟨⟨m, found, same⟩, rfl⟩
  · exact Run.errorOfBind.mpr (.inl stops)
  · have all : ¬ m.rest.byteLength < t.byteLength := by
      rw [same]
      exact Nat.lt_irrefl _
    rw [Run.endingBind _ found]
    simp only [dif_neg all]
    rfl

theorem manyBreaks (breaks : p.Breaks t s) : (many p t).ending = .error s :=
  Run.errorOfBind.mpr (.inl (repeatedBreaks breaks))

theorem unrolledSame (ends : ∀ t m, p.Yields t (some m) → m.rest <:+ t)
    (moves : ∀ m, p.Yields input (some m) → m.rest ≠ input) :
    choice [sequence [p, many p], succeed] input = many p input := by
  rw [manyRun, unrolledRun]
  refine Run.bindAlike fun found ended => ?_
  cases found with
  | none => rfl
  | some m => rw [Option.elim_some, Option.elim_some, if_pos (suffixShrinks (ends _ m ended) (moves m ended))]

theorem turnEnding (found : p.Yields t (some m)) (shrinks : m.rest.byteLength < t.byteLength) :
    (many p t).ending =
      (many p m.rest).ending.map (Option.map fun o => ⟨o.rest, m.produced ++ o.produced⟩) := by
  rw [manyRun, Run.endingBind _ found, Option.elim_some, if_pos shrinks]
  unfold many
  cases ended : (repeated p m.rest).ending with
  | error s => rw [Run.errorOfBind.mpr (.inl ended), Run.errorOfBind.mpr (.inl ended)]; rfl
  | ok o => rw [Run.endingBind _ ended, Run.endingBind _ ended]; rfl

theorem turnsEnding (turns : Turns p input values last) : (many p input).ending =
    (many p last).ending.map (Option.map fun o => ⟨o.rest, values ++ o.produced⟩) := by
  induction turns with
  | done => cases (many p _).ending <;> simp [Except.map]
  | @turn _ _ _ last found shrinks _ ih =>
    rw [turnEnding found shrinks, ih]
    cases (many p last).ending with
    | error s => rfl
    | ok found => cases found <;> simp [Except.map]

theorem turnsMissed (turns : Turns p input values last) (missed : p.Yields last none) :
    (many p).Yields input (some ⟨last, values⟩) := by
  have stop : (many p last).ending = .ok (some ⟨last, []⟩) := manyStop missed
  rw [Yields, turnsEnding turns, stop]
  simp [Except.map]

theorem turnsBreak (turns : Turns p input values last) (breaks : p.Breaks last s) :
    (many p input).ending = .error s := by
  rw [turnsEnding turns, manyBreaks breaks]
  rfl

theorem turnsHalt (ends : ∀ t m, p.Yields t (some m) → m.rest <:+ t) (input : Text) :
    ∃ values last, Turns p input values last ∧ p.Halts last := by
  induction size : input.byteLength using Nat.strongRecOn generalizing input with
  | ind _ ih => ?_
  subst size
  cases ended : (p input).ending with
  | error s => exact ⟨[], input, .done, .inr ⟨s, .inl ended⟩⟩
  | ok found =>
    cases found with
    | none => exact ⟨[], input, .done, .inl ended⟩
    | some m =>
      by_cases same : m.rest = input
      · exact ⟨[], input, .done, .inr ⟨_, .inr ⟨⟨m, ended, same⟩, rfl⟩⟩⟩
      · have shrinks := suffixShrinks (ends input m ended) same
        obtain ⟨values, last, turns, halts⟩ := ih _ shrinks m.rest rfl
        exact ⟨_, last, .turn ended shrinks turns, halts⟩

theorem haltsTurn (halts : p.Halts t) (found : p.Yields t (some m)) :
    ¬ m.rest.byteLength < t.byteLength := by
  intro shrinks
  rcases halts with missed | ⟨s, stops | ⟨⟨o, idle, same⟩, -⟩⟩
  · cases Except.ok.inj (missed.symm.trans found)
  · cases stops.symm.trans found
  · cases Except.ok.inj (idle.symm.trans found)
    exact absurd (same ▸ shrinks) (Nat.lt_irrefl _)

theorem turnsUnique (turns : Turns p input values last) (halts : p.Halts last) {others : List α}
    {ending : Text} (other : Turns p input others ending) (ended : p.Halts ending) :
    others = values ∧ ending = last := by
  induction turns generalizing others with
  | done =>
    cases other with
    | done => exact ⟨rfl, rfl⟩
    | turn found shrinks _ => exact absurd shrinks (haltsTurn halts found)
  | turn found shrinks _ ih =>
    cases other with
    | done => exact absurd shrinks (haltsTurn ended found)
    | turn again _ later =>
      cases Except.ok.inj (again.symm.trans found)
      obtain ⟨rfl, rfl⟩ := ih halts later
      exact ⟨rfl, rfl⟩

theorem manyYieldsTurns (ends : ∀ t m, p.Yields t (some m) → m.rest <:+ t) {o : Match α} :
    (many p).Yields input (some o) ↔ Turns p input o.produced o.rest ∧ p.Yields o.rest none := by
  constructor
  · intro found
    obtain ⟨values, last, turns, missed | ⟨s, breaks⟩⟩ := turnsHalt ends input
    · cases Except.ok.inj ((turnsMissed turns missed).symm.trans found)
      exact ⟨turns, missed⟩
    · cases (turnsBreak turns breaks).symm.trans found
  · intro reached
    exact turnsMissed reached.1 reached.2

theorem manyBreaksTurns (ends : ∀ t m, p.Yields t (some m) → m.rest <:+ t) :
    (many p input).ending = .error s ↔ ∃ values last, Turns p input values last ∧ p.Breaks last s := by
  constructor
  · intro stopped
    obtain ⟨values, last, turns, missed | ⟨other, breaks⟩⟩ := turnsHalt ends input
    · cases (turnsMissed turns missed).symm.trans stopped
    · cases (turnsBreak turns breaks).symm.trans stopped
      exact ⟨values, last, turns, breaks⟩
  · rintro ⟨values, last, turns, breaks⟩
    exact turnsBreak turns breaks

theorem unrolledEnding (ends : ∀ t m, p.Yields t (some m) → m.rest <:+ t) (input : Text) :
    (choice [sequence [p, many p], succeed] input).ending = (many p input).ending := by
  by_cases idle : ∃ m, p.Yields input (some m) ∧ m.rest = input
  · have breaks : p.Breaks input (.panic .stalledRepetition) := .inr ⟨idle, rfl⟩
    obtain ⟨m, found, same⟩ := idle
    -- What the first match leaves is the input again, and there the loop stalls.
    have again : (repeated p m.rest).ending = .error (.panic .stalledRepetition) := by
      rw [same]
      exact repeatedBreaks breaks
    rw [manyBreaks breaks, unrolledRun, Run.endingBind _ found]
    exact Run.errorOfBind.mpr (.inl again)
  · have moves : ∀ m, p.Yields input (some m) → m.rest ≠ input := fun m found same =>
      idle ⟨m, found, same⟩
    rw [unrolledSame ends moves]

/-- A repetition always ends, at the one text that turns lead to and where none follows. It matches if
`p` does not match there, with the values of all turns, and stops if `p` stops there or matches without
consuming. Its first turn may be taken out of it: the answer and every stop stay the same, and so does
the journal of a run that is not stopped. -/
theorem repetitionFollowsItsTurns {p : Parser α} (ends : ∀ t m, p.Yields t (some m) → m.rest <:+ t)
    (input : Text) :
    (∃ values last, Turns p input values last ∧ p.Halts last ∧
      ∀ others ending, Turns p input others ending → p.Halts ending → others = values ∧ ending = last) ∧
    ¬ (many p).Yields input none ∧
    (∀ o, (many p).Yields input (some o) ↔ Turns p input o.produced o.rest ∧ p.Yields o.rest none) ∧
    (∀ s, (many p input).ending = .error s ↔
      ∃ values last, Turns p input values last ∧ p.Breaks last s) ∧
    (choice [sequence [p, many p], succeed] input).ending = (many p input).ending ∧
    ∀ o, (many p).Yields input (some o) →
      choice [sequence [p, many p], succeed] input = many p input := by
  obtain ⟨values, last, turns, halts⟩ := turnsHalt ends input
  refine ⟨⟨values, last, turns, halts, fun _ _ other ended => turnsUnique turns halts other ended⟩,
    manyMatches, fun _ => manyYieldsTurns ends, fun _ => manyBreaksTurns ends,
    unrolledEnding ends input, fun o found => ?_⟩
  refine unrolledSame ends fun m here same => ?_
  have stops : (many p input).ending = .error (.panic .stalledRepetition) :=
    manyBreaks (.inr ⟨⟨m, here, same⟩, rfl⟩)
  cases stops.symm.trans found

theorem spannedTurnsMatchAndStall :
    let p := traced "a" (choice [literal "a", notAhead (literal "b")])
    (∀ t m, p.Yields t (some m) → m.rest <:+ t) ∧
      (many p).Yields "aab".toList (some ⟨['b'], ["a", "a"]⟩) ∧
      choice [sequence [p, many p], succeed] "aab".toList = many p "aab".toList ∧
      (many p "aac".toList).ending = .error (.panic .stalledRepetition) := by
  intro p
  have ends : ∀ t m, p.Yields t (some m) → m.rest <:+ t := by
    intro t m found
    have plain : (choice [literal "a", notAhead (literal "b")]).Plain :=
      .choice (by simp [Plain.literal, Plain.notAhead])
    have reads : p.Reads (fun _ => True) t.length Language.every :=
      readsTraced "a" (plain.withinEvery trivial t.length)
    obtain ⟨used, splits, -⟩ := Run.endsResult (reads t (Nat.le_refl _)) found m rfl
    exact ⟨used, splits.symm⟩
  have matching : Turns p "aab".toList ["a", "a"] ['b'] :=
    .turn (m := ⟨['a', 'b'], ["a"]⟩) rfl (by decide) (.turn (m := ⟨['b'], ["a"]⟩) rfl (by decide) .done)
  have stalling : Turns p "aac".toList ["a", "a"] ['c'] :=
    .turn (m := ⟨['a', 'c'], ["a"]⟩) rfl (by decide) (.turn (m := ⟨['c'], ["a"]⟩) rfl (by decide) .done)
  obtain ⟨-, -, matched, -, -, same⟩ := repetitionFollowsItsTurns ends "aab".toList
  obtain ⟨-, -, -, stopped, -, -⟩ := repetitionFollowsItsTurns ends "aac".toList
  have found := (matched ⟨['b'], ["a", "a"]⟩).mpr ⟨matching, rfl⟩
  have stalls := (stopped (.panic .stalledRepetition)).mpr
    ⟨["a", "a"], ['c'], stalling, .inr ⟨⟨⟨['c'], []⟩, rfl, rfl⟩, rfl⟩⟩
  exact ⟨ends, found, same _ found, stalls⟩

end Parser
end Descent
