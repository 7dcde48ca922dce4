import Descent.ParseAll
import Descent.Proofs.Language
/-!
The outcome of a parser on one text, from the outcomes of its parts. A parser that never stops is
a function from texts to outcomes; such functions compose like the parsers do.
-/
namespace Descent

namespace Run

variable {α β : Type}

theorem endingBind {r : Run α} {a : α} (next : α → Run β) (ended : r.ending = .ok a) :
    (r >>= next).ending = (next a).ending := by
  obtain ⟨journal, ending⟩ := r
  cases ended
  rfl

theorem bindEnding {r : Run α} {next : α → Run β} {b : β} (ended : (r >>= next).ending = .ok b) :
    ∃ a, r.ending = .ok a ∧ (next a).ending = .ok b := by
  obtain ⟨journal, ending⟩ := r
  cases ending with
  | error s => contradiction
  | ok a => exact ⟨a, rfl, ended⟩

theorem errorOfBind {r : Run α} {next : α → Run β} {s : Stop} : (r >>= next).ending = .error s ↔
    r.ending = .error s ∨ ∃ a, r.ending = .ok a ∧ (next a).ending = .error s := by
  obtain ⟨journal, ending⟩ := r
  cases ending with
  | error t => simp [bindError]
  | ok a => simp [bindOk, behind]

end Run

theorem Text.afterPrefix {s t : Text} : (after? s t).isSome ↔ s <+: t := by
  constructor
  · intro found
    obtain ⟨rest, found⟩ := Option.isSome_iff_exists.mp found
    exact ⟨rest, (afterSplits found).symm⟩
  · intro begins
    obtain ⟨rest, rfl⟩ := begins
    rw [afterAppend]
    rfl

namespace Parser

variable {α β : Type} {p : Parser α} {ps : List (Parser α)} {input : Text} {m : Match α}
  {found : Option (Match α)}

def Yields (p : Parser α) (input : Text) (found : Option (Match α)) : Prop :=
  (p input).ending = .ok found

theorem choiceHere (here : p.Yields input (some m)) : (choice (p :: ps)).Yields input (some m) := by
  simp only [Yields, choice, Run.endingBind _ here]
  rfl

theorem choiceLater (missed : p.Yields input none) (later : (choice ps).Yields input found) :
    (choice (p :: ps)).Yields input found := by
  simpa only [Yields, choice, Run.endingBind _ missed] using later

theorem choiceNone (missed : ∀ p ∈ ps, p.Yields input none) : (choice ps).Yields input none := by
  induction ps with
  | nil => rfl
  | cons p ps ih =>
    exact choiceLater (missed p List.mem_cons_self) (ih fun q inside =>
      missed q (List.mem_cons_of_mem _ inside))

theorem choiceApart {kinds : List ((Char → Bool) × Parser α)} {c : Char}
    (missed : ∀ kind ∈ kinds, kind.1 c = false → kind.2.Yields input none)
    (apart : kinds.Pairwise fun one other => one.1 c = true → other.1 c = false)
    {kind : (Char → Bool) × Parser α} (inside : kind ∈ kinds) (own : kind.1 c = true)
    (here : kind.2.Yields input (some m)) : (choice (kinds.map Prod.snd)).Yields input (some m) := by
  induction kinds with
  | nil => contradiction
  | cons first kinds ih =>
    obtain ⟨firstApart, apart⟩ := List.pairwise_cons.mp apart
    rcases List.mem_cons.mp inside with rfl | later
    · exact choiceHere here
    · have other : first.1 c = false := by
        rw [← Bool.not_eq_true]
        intro taken
        exact absurd own (Bool.eq_false_iff.mp (firstApart kind later taken))
      exact choiceLater (missed first List.mem_cons_self other)
        (ih (fun kind among => missed kind (List.mem_cons_of_mem _ among)) apart later)

theorem sequenceNil : (sequence ([] : List (Parser α))).Yields input (some ⟨input, []⟩) := rfl

theorem sequenceMiss (missed : p.Yields input none) : (sequence (p :: ps)).Yields input none := by
  simp only [Yields, sequence, Run.endingBind _ missed]
  rfl

theorem sequenceStep (here : p.Yields input (some m)) (others : (sequence ps).Yields m.rest found) :
    (sequence (p :: ps)).Yields input (found.map fun o => ⟨o.rest, m.produced ++ o.produced⟩) := by
  simp only [Yields, sequence, Run.endingBind _ here, Run.endingBind _ others]
  cases found <;> rfl

theorem sequenceSome (found : (sequence (p :: ps)).Yields input (some m)) : ∃ first others,
    p.Yields input (some first) ∧ (sequence ps).Yields first.rest (some others) ∧
      m = ⟨others.rest, first.produced ++ others.produced⟩ := by
  obtain ⟨outcome, here, found⟩ := Run.bindEnding found
  cases outcome with
  | none => cases Except.ok.inj found
  | some first =>
    obtain ⟨outcome, later, found⟩ := Run.bindEnding found
    cases outcome with
    | none => cases Except.ok.inj found
    | some others =>
      cases Except.ok.inj found
      exact ⟨first, others, here, later, rfl⟩

theorem manyYieldsIff : (many p).Yields input (some m) ↔ (repeated p input).ending = .ok m := by
  unfold Yields many
  generalize repeated p input = r
  obtain ⟨journal, ending⟩ := r
  cases ending with
  | error s => constructor <;> exact fun result => by contradiction
  | ok o =>
    rw [Run.bindOk]
    simp [Run.behind, Run.pureEq]

theorem manyStop (missed : p.Yields input none) : (many p).Yields input (some ⟨input, []⟩) := by
  rw [manyYieldsIff, repeated, Run.endingBind _ missed]
  rfl

theorem manyStep {o : Match α} (here : p.Yields input (some m))
    (shrinks : m.rest.byteLength < input.byteLength) (others : (many p).Yields m.rest (some o)) :
    (many p).Yields input (some ⟨o.rest, m.produced ++ o.produced⟩) := by
  rw [manyYieldsIff] at others ⊢
  rw [repeated, Run.endingBind _ here]
  simp only [dif_pos shrinks, Run.endingBind _ others]
  rfl

theorem refineYields {f : Match α → Option (Match β)} (part : p.Yields input found) :
    (refine f p).Yields input (found.bind f) := by
  simp only [Yields, refine, Run.endingBind _ part]
  rfl

theorem mapYields {f : α → β} (part : p.Yields input found) :
    (map f p).Yields input (found.map fun m => ⟨m.rest, m.produced.map f⟩) := by
  cases found <;> exact refineYields part

theorem mapAllYields {f : List α → List β} (part : p.Yields input found) :
    (mapAll f p).Yields input (found.map fun m => ⟨m.rest, f m.produced⟩) := by
  cases found <;> exact refineYields part

theorem mapAllYields? {f : List α → Option (List β)} (part : p.Yields input found) :
    (mapAll? f p).Yields input
      (found.bind fun m => (f m.produced).map fun values => ⟨m.rest, values⟩) :=
  refineYields part

theorem skipYields (part : p.Yields input found) :
    (skip p : Parser β).Yields input (found.map fun m => ⟨m.rest, []⟩) :=
  mapAllYields part

theorem notAheadHere (missed : p.Yields input none) :
    (notAhead p : Parser β).Yields input (some ⟨input, []⟩) := by
  simp only [Yields, notAhead, Run.endingBind _ missed]
  rfl

theorem notAheadMiss (here : p.Yields input (some m)) :
    (notAhead p : Parser β).Yields input none := by
  simp only [Yields, notAhead, Run.endingBind _ here]
  rfl

def Computes (p : Parser α) (f : Text → Option (Match α)) : Prop :=
  ∀ input, p.Yields input (f input)

variable {f g : Text → Option (Match α)}

theorem computesReads {stopped : Stop → Prop} {n : Nat} {L : Language α} (part : p.Computes f)
    (words : ∀ input m, f input = some m → ∃ w, input = w ++ m.rest ∧ L w m.produced) :
    p.Reads stopped n L := by
  intro input _
  have ended : (p input).ending = .ok (f input) := part input
  simp only [Run.Ends, ended]
  exact words input

theorem computesEq (part : p.Computes f) (same : ∀ input, f input = g input) : p.Computes g :=
  fun input => same input ▸ part input

theorem choiceComputes (first : p.Computes f) (others : (choice ps).Computes g) :
    (choice (p :: ps)).Computes fun input => (f input).or (g input) := by
  intro input
  dsimp only
  cases here : f input with
  | none => exact choiceLater (here ▸ first input) (others input)
  | some m => exact choiceHere (here ▸ first input)

theorem onlyComputes (part : p.Computes f) : (choice [p]).Computes f := by
  have nothing : (choice [] : Parser α).Computes fun _ => none := fun _ => rfl
  exact computesEq (choiceComputes part nothing) fun _ => Option.or_none

theorem choiceOfComputes {γ : Type} {entries : List γ} {parser : γ → Parser α}
    {outcome : γ → Text → Option (Match α)} (parts : ∀ e, (parser e).Computes (outcome e)) :
    (choice (entries.map parser)).Computes fun input => entries.findSome? fun e => outcome e input := by
  induction entries with
  | nil => exact fun _ => rfl
  | cons e entries ih =>
    refine computesEq (choiceComputes (parts e) ih) fun input => ?_
    rw [List.findSome?_cons]
    cases outcome e input <;> rfl

theorem sequenceComputes (first : p.Computes f) (others : (sequence ps).Computes g) :
    (sequence (p :: ps)).Computes fun input => (f input).bind fun m =>
      (g m.rest).map fun o => ⟨o.rest, m.produced ++ o.produced⟩ := by
  intro input
  dsimp only
  cases here : f input with
  | none => exact sequenceMiss (here ▸ first input)
  | some m => exact sequenceStep (here ▸ first input) (others m.rest)

theorem lastComputes (part : p.Computes f) : (sequence [p]).Computes f :=
  computesEq (sequenceComputes part fun _ => sequenceNil) fun input => by
    cases f input <;> simp

theorem mapComputes {h : α → β} (part : p.Computes f) :
    (map h p).Computes fun input => (f input).map fun m => ⟨m.rest, m.produced.map h⟩ :=
  fun input => mapYields (part input)

theorem mapAllComputes {h : List α → List β} (part : p.Computes f) :
    (mapAll h p).Computes fun input => (f input).map fun m => ⟨m.rest, h m.produced⟩ :=
  fun input => mapAllYields (part input)

theorem mapAllComputes? {h : List α → Option (List β)} (part : p.Computes f) :
    (mapAll? h p).Computes fun input =>
      (f input).bind fun m => (h m.produced).map fun values => ⟨m.rest, values⟩ :=
  fun input => mapAllYields? (part input)

def one (f : Char → Option α) : Text → Option (Match α)
  | [] => none
  | c :: rest => (f c).map fun a => ⟨rest, [a]⟩

theorem notAheadComputes (part : p.Computes f) : (notAhead p : Parser β).Computes fun input =>
    if (f input).isSome then none else some ⟨input, []⟩ := by
  intro input
  dsimp only
  cases here : f input with
  | none => exact notAheadHere (here ▸ part input)
  | some m => exact notAheadMiss (here ▸ part input)

theorem anyCharComputes : anyChar.Computes (one some) := fun input => by
  cases input <;> rfl

theorem literalComputes (c : Char) :
    (literal c.toString).Computes (one fun d => if c = d then some c.toString else none) := by
  intro input
  have full : c.toString.isEmpty = false := by simp [Char.toString]
  have spelled : c.toString.toList = [c] := by simp [Char.toString]
  unfold Yields literal
  rw [full, spelled]
  cases input with
  | nil => rfl
  | cons d rest =>
    by_cases same : c = d <;> simp [Text.after?, one, same, Run.pureEq]

theorem tableComputes (table : List (Char × α)) :
    (choice (table.map fun e => map (fun _ => e.2) (literal e.1.toString))).Computes
      (one fun c => (table.find? fun e => e.1 == c).map Prod.snd) := by
  induction table with
  | nil => exact fun input => by cases input <;> rfl
  | cons e table ih =>
    have first := mapComputes (h := fun _ => e.2) (literalComputes e.1)
    refine computesEq (choiceComputes first ih) fun input => ?_
    cases input with
    | nil => rfl
    | cons c rest => by_cases same : e.1 = c <;> simp [one, same]

theorem literalsComputes (cs : List Char) : (choice (cs.map fun c => literal c.toString)).Computes
    (one fun c => if c ∈ cs then some c.toString else none) := by
  induction cs with
  | nil => exact fun input => by cases input <;> rfl
  | cons c cs ih =>
    refine computesEq (choiceComputes (literalComputes c) ih) fun input => ?_
    cases input with
    | nil => rfl
    | cons d rest =>
      by_cases same : c = d
      · simp [one, same]
      · by_cases later : d ∈ cs <;> simp [one, same, later, Ne.symm same]

theorem wordComputes {expected : String} (full : expected ≠ "") : (literal expected).Computes
    fun input => (Text.after? expected.toList input).map fun rest => ⟨rest, [expected]⟩ := by
  intro input
  unfold Yields literal
  rw [if_neg (by simpa using full)]
  rfl

theorem literalMiss {expected : String} (different : Text.after? expected.toList input = none) :
    (literal expected).Yields input none := by
  unfold Yields literal
  split
  · rfl
  · rw [different]
    rfl

theorem literalNone {expected : String} (full : expected ≠ "") :
    (literal expected).Yields input none ↔ ¬ expected.toList <+: input := by
  rw [← Text.afterPrefix, Option.not_isSome_iff_eq_none]
  constructor
  · intro missed
    have computed := wordComputes full input
    exact Option.map_eq_none_iff.mp (Except.ok.inj (computed.symm.trans missed))
  · exact literalMiss

theorem literalSome {expected : String} {m : Match String}
    (found : (literal expected).Yields input (some m)) :
    input = expected.toList ++ m.rest ∧ m.produced = [expected] := by
  have reads : (literal expected).Reads (fun _ => True) input.length _ := readsLiteral expected
  obtain ⟨_, splits, -, rfl, made⟩ := Run.endsResult (reads input (Nat.le_refl _)) found m rfl
  exact ⟨splits, made⟩

theorem literalHere {expected : String} (full : expected ≠ "") (rest : Text) :
    (literal expected).Yields (expected.toList ++ rest) (some ⟨rest, [expected]⟩) :=
  congrArg Run.ending
    (literalMatches (m := ⟨rest, [expected]⟩).mpr ⟨full, rfl, rfl⟩)

def behind (c : Char) (f : Text → Option (Match α)) : Text → Option (Match α)
  | [] => none
  | d :: rest => if c = d then f rest else none

theorem behindMiss {c : Char} (other : ∀ rest, input = c :: rest → False) :
    behind c f input = none := by
  cases input with
  | nil => rfl
  | cons d rest => exact if_neg fun same => other rest (by rw [same])

theorem skipLiteralComputes (c : Char) : (skip (literal c.toString) : Parser β).Computes
    (behind c fun rest => some ⟨rest, []⟩) :=
  computesEq (mapAllComputes (literalComputes c)) fun input => by
    cases input with
    | nil => rfl
    | cons d rest => by_cases same : c = d <;> simp [one, behind, same]

theorem behindComputes (c : Char) (part : p.Computes f) :
    (sequence [skip (literal c.toString), p]).Computes (behind c f) :=
  computesEq (sequenceComputes (skipLiteralComputes c) (lastComputes part)) fun input => by
    cases input with
    | nil => rfl
    | cons d rest =>
      by_cases same : c = d
      · simp only [behind, if_pos same, Option.bind_some]
        cases f rest <;> rfl
      · simp only [behind, if_neg same, Option.bind_none]

theorem manyOneComputes {f : Char → Option α} (part : p.Computes (one f)) :
    (many p).Computes fun input => some ⟨input.dropWhile fun c => (f c).isSome,
      (input.takeWhile fun c => (f c).isSome).filterMap f⟩ := by
  intro input
  induction input with
  | nil => exact manyStop (part [])
  | cons c rest ih =>
    have here := part (c :: rest)
    cases accepted : f c with
    | none =>
      simp only [one, accepted, Option.map_none] at here
      simpa [accepted] using manyStop here
    | some a =>
      simp only [one, accepted, Option.map_some] at here
      simpa [accepted] using manyStep here (Text.byteLengthCons c rest) ih

theorem many1OneComputes {f : Char → Option α} (part : p.Computes (one f)) :
    (many1 p).Computes fun input =>
      let taken := input.takeWhile fun c => (f c).isSome
      if taken = [] then none
      else some ⟨input.dropWhile fun c => (f c).isSome, taken.filterMap f⟩ := by
  refine computesEq (sequenceComputes part (lastComputes (manyOneComputes part))) fun input => ?_
  cases input with
  | nil => rfl
  | cons c rest => cases accepted : f c <;> simp [one, accepted]

end Parser

theorem parseAllEnding {α : Type} (p : Parser α) (input : Text) :
    (parseAll p input).ending = match (p input).ending with
      | .error s => .error s
      | .ok none => .ok (.error .noMatch)
      | .ok (some m) =>
        if m.rest = [] then .ok (.ok m.produced)
        else if m.rest.byteLength ≤ input.byteLength then
          .ok (.error (.trailingInput (input.byteLength - m.rest.byteLength) m.rest.byteLength))
        else .error (.panic .overflow) := by
  unfold parseAll
  obtain ⟨journal, ending⟩ := p input
  match ending with
  | .error s => rfl
  | .ok none => rfl
  | .ok (some m) =>
    rw [Run.bindOk]
    by_cases none : m.rest = []
    · simp [none, Run.behind, Run.pureEq]
    · by_cases fits : m.rest.byteLength ≤ input.byteLength
      · simp [none, fits, Run.difference, Run.behind, Run.record, Run.pureEq, Run.bindOk]
      · simp [none, fits, Run.difference, Run.panic, Run.stop, Run.behind, Run.bindError]

theorem parseAllMatches {α : Type} {p : Parser α} {input : Text} {values : List α}
    (whole : (parseAll p input).ending = .ok (.ok values)) :
    ∃ m, (p input).ending = .ok (some m) ∧ m.rest = [] ∧ m.produced = values := by
  rw [parseAllEnding] at whole
  split at whole
  · contradiction
  · simp at whole
  · rename_i m found
    by_cases used : m.rest = []
    · simp only [if_pos used] at whole
      cases whole
      exact ⟨m, found, used, rfl⟩
    · simp only [if_neg used] at whole
      split at whole <;> cases whole

theorem parseAllStops {α : Type} {p : Parser α} {input : Text} {s : Stop}
    (fits : ∀ m, p.Yields input (some m) → m.rest.byteLength ≤ input.byteLength) :
    (parseAll p input).ending = .error s ↔ (p input).ending = .error s := by
  rw [parseAllEnding]
  split
  · rename_i stopped
    simp [stopped]
  · rename_i missed
    simp [missed]
  · rename_i m found
    by_cases used : m.rest = [] <;> simp [found, used, fits m found]

end Descent
