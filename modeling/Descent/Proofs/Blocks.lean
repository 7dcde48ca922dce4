import Descent.Proofs.Progress
/-!
Blocks of any three parsers. The content of a block is walked piece by piece, and the walk ends only where
the terminator matches or the text is at its end. Whether a block matches, and what it makes of its text,
is therefore decided by its start, by the walk and by the terminator at the place where the walk ends.
-/
namespace Descent.Parser

variable {α : Type}

/-- The pieces of the content, up to the place where it ends. The escape goes before the terminator, and
the terminator before a scalar. -/
inductive Walk (ofChar : Char → α) (terminator escape : Parser α) : Text → List α → Text → Prop
  | stop {t} (missed : escape.Yields t none) (ended : t = [] ∨ ∃ m, terminator.Yields t (some m)) :
      Walk ofChar terminator escape t [] t
  | escaped {t m pieces last} (here : escape.Yields t (some m))
      (rest : Walk ofChar terminator escape m.rest pieces last) :
      Walk ofChar terminator escape t (m.produced ++ pieces) last
  | scalar {c t pieces last} (missed : escape.Yields (c :: t) none)
      (inside : terminator.Yields (c :: t) none) (rest : Walk ofChar terminator escape t pieces last) :
      Walk ofChar terminator escape (c :: t) (ofChar c :: pieces) last

variable {ofChar : Char → α} {start terminator escape : Parser α} {t input : Text}

theorem answersAlways (answers : ∀ n, terminator.Advances n 0) (t : Text) :
    ∃ found, terminator.Yields t found :=
  advancesAnswers (answers t.length) (Nat.le_refl _)

theorem escapeShrinks (advances : ∀ n, escape.Advances n 1) {m : Match α}
    (found : escape.Yields t (some m)) : m.rest.byteLength < t.byteLength := by
  obtain ⟨used, splits, some⟩ := Run.endsResult (advances t.length t (Nat.le_refl _)) found m rfl
  rw [splits]
  exact Text.byteLengthBehind (List.length_pos_iff.mp some) m.rest

theorem contentEscape {m : Match α} (here : escape.Yields t (some m)) :
    (content ofChar terminator escape).Yields t (some m) :=
  choiceHere here

theorem contentScalar {c : Char} (missed : escape.Yields (c :: t) none)
    (inside : terminator.Yields (c :: t) none) :
    (content ofChar terminator escape).Yields (c :: t) (some ⟨t, [ofChar c]⟩) := by
  have scalar : (sequence [map ofChar anyChar]).Yields (c :: t) (some ⟨t, [ofChar c]⟩) := rfl
  exact choiceLater missed (choiceHere (sequenceStep (notAheadHere inside) scalar))

theorem contentStop (answers : ∀ n, terminator.Advances n 0) (missed : escape.Yields t none)
    (ended : t = [] ∨ ∃ m, terminator.Yields t (some m)) :
    (content ofChar terminator escape).Yields t none := by
  have scalar : (sequence [notAhead terminator, map ofChar anyChar]).Yields t none := by
    obtain ⟨found, ahead⟩ := answersAlways answers t
    cases found with
    | some m => exact sequenceMiss (notAheadMiss ahead)
    | none =>
      rcases ended with rfl | ⟨m, here⟩
      · -- At the end of the text it is the scalar that is missing.
        have empty : (sequence [map ofChar anyChar]).Yields [] none := rfl
        exact sequenceStep (notAheadHere ahead) empty
      · cases Except.ok.inj (ahead.symm.trans here)
  exact choiceLater missed (choiceLater scalar rfl)

variable {pieces : List α} {last : Text}

theorem walkStops (walk : Walk ofChar terminator escape t pieces last) :
    last = [] ∨ ∃ m, terminator.Yields last (some m) := by
  induction walk with
  | stop _ ended => exact ended
  | escaped _ _ ih => exact ih
  | scalar _ _ _ ih => exact ih

theorem walkMissed (walk : Walk ofChar terminator escape t pieces last) : escape.Yields last none := by
  induction walk with
  | stop missed _ => exact missed
  | escaped _ _ ih => exact ih
  | scalar _ _ _ ih => exact ih

theorem walkOpen (walk : Walk ofChar terminator escape t pieces last)
    (missed : terminator.Yields last none) : last = [] := by
  rcases walkStops walk with ended | ⟨m, here⟩
  · exact ended
  · cases Except.ok.inj (missed.symm.trans here)

theorem walkYields (answers : ∀ n, terminator.Advances n 0) (advances : ∀ n, escape.Advances n 1)
    (walk : Walk ofChar terminator escape t pieces last) :
    (many (content ofChar terminator escape)).Yields t (some ⟨last, pieces⟩) := by
  induction walk with
  | stop missed ended => exact manyStop (contentStop answers missed ended)
  | escaped here _ ih => exact manyStep (contentEscape here) (escapeShrinks advances here) ih
  | scalar missed inside _ ih => exact manyStep (contentScalar missed inside) (Text.byteLengthCons _ _) ih

theorem walkEnds (ofChar : Char → α) (answers : ∀ n, terminator.Advances n 0)
    (advances : ∀ n, escape.Advances n 1) (t : Text) :
    ∃ pieces last, Walk ofChar terminator escape t pieces last := by
  induction size : t.byteLength using Nat.strongRecOn generalizing t with
  | ind _ ih => ?_
  subst size
  obtain ⟨escaped, ahead⟩ := answersAlways (fun n => advancesAny (advances n)) t
  cases escaped with
  | some m =>
    obtain ⟨pieces, last, rest⟩ := ih _ (escapeShrinks advances ahead) m.rest rfl
    exact ⟨_, last, .escaped ahead rest⟩
  | none =>
    obtain ⟨ending, here⟩ := answersAlways answers t
    cases ending with
    | some m => exact ⟨[], t, .stop ahead (.inr ⟨m, here⟩)⟩
    | none =>
      cases t with
      | nil => exact ⟨[], [], .stop ahead (.inl rfl)⟩
      | cons c t =>
        obtain ⟨pieces, last, rest⟩ := ih _ (Text.byteLengthCons c t) t rfl
        exact ⟨_, last, .scalar ahead here rest⟩

theorem walkUnique (answers : ∀ n, terminator.Advances n 0) (advances : ∀ n, escape.Advances n 1)
    (walk : Walk ofChar terminator escape t pieces last) {others : List α} {ending : Text}
    (other : Walk ofChar terminator escape t others ending) : others = pieces ∧ ending = last := by
  have first := walkYields answers advances walk
  have second := walkYields answers advances other
  cases Except.ok.inj (second.symm.trans first)
  exact ⟨rfl, rfl⟩

theorem blockMiss (missed : start.Yields input none) :
    (block ofChar start terminator escape).Yields input none :=
  sequenceMiss missed

theorem blockYields (answers : ∀ n, terminator.Advances n 0) (advances : ∀ n, escape.Advances n 1)
    {m : Match α} (opened : start.Yields input (some m))
    (walk : Walk ofChar terminator escape m.rest pieces last) {found : Option (Match α)}
    (closed : terminator.Yields last found) :
    (block ofChar start terminator escape).Yields input
      (found.map fun o => ⟨o.rest, m.produced ++ pieces ++ o.produced⟩) := by
  have inside := walkYields answers advances walk
  cases found with
  | none =>
    have unclosed : (sequence [terminator]).Yields last none := sequenceMiss closed
    exact sequenceStep opened (sequenceStep inside unclosed)
  | some o =>
    have rest := sequenceStep inside (sequenceStep closed sequenceNil)
    have whole := sequenceStep opened rest
    simp only [Option.map_some, List.append_nil, ← List.append_assoc] at whole
    exact whole

theorem blockEnds (ofChar : Char → α) (first : ∀ n, start.Advances n 0)
    (second : ∀ n, terminator.Advances n 0) (third : ∀ n, escape.Advances n 1) (input : Text) :
    (start.Yields input none ∧ (block ofChar start terminator escape).Yields input none) ∨
    ∃ m pieces last found, start.Yields input (some m) ∧
      Walk ofChar terminator escape m.rest pieces last ∧ terminator.Yields last found ∧
      (block ofChar start terminator escape).Yields input
        (found.map fun o => ⟨o.rest, m.produced ++ pieces ++ o.produced⟩) := by
  obtain ⟨opening, opened⟩ := answersAlways first input
  cases opening with
  | none => exact .inl ⟨opened, blockMiss opened⟩
  | some m =>
    obtain ⟨pieces, last, walk⟩ := walkEnds ofChar second third m.rest
    obtain ⟨found, closed⟩ := answersAlways second last
    exact .inr ⟨m, pieces, last, found, opened, walk, closed, blockYields second third opened walk closed⟩

theorem blockMatches (first : ∀ n, start.Advances n 0) (second : ∀ n, terminator.Advances n 0)
    (third : ∀ n, escape.Advances n 1) {o : Match α}
    (found : (block ofChar start terminator escape).Yields input (some o)) :
    ∃ m pieces last closing, start.Yields input (some m) ∧
      Walk ofChar terminator escape m.rest pieces last ∧ terminator.Yields last (some closing) ∧
      o = ⟨closing.rest, m.produced ++ pieces ++ closing.produced⟩ := by
  rcases blockEnds ofChar first second third input with
    ⟨-, missed⟩ | ⟨m, pieces, last, outcome, opened, walk, closed, yields⟩
  · cases Except.ok.inj (missed.symm.trans found)
  · cases outcome with
    | none => cases Except.ok.inj (yields.symm.trans found)
    | some closing =>
      cases Except.ok.inj (yields.symm.trans found)
      exact ⟨m, pieces, last, closing, opened, walk, closed, rfl⟩

/-- Where the terminator always answers and the escape always advances, a block never stops the run. It
does not match exactly where its start does not, or where the content is walked to the end of the text
and the terminator does not match there. A match is that of the terminator where the walk ends, and it
produces what the start, the pieces of the content and the terminator do. -/
theorem blockWalksItsContent (ofChar : Char → α) {start terminator escape : Parser α}
    (first : ∀ n, start.Advances n 0) (second : ∀ n, terminator.Advances n 0)
    (third : ∀ n, escape.Advances n 1) (input : Text) :
    (∃ found, (block ofChar start terminator escape).Yields input found) ∧
    (∀ t, ∃ pieces last, Walk ofChar terminator escape t pieces last ∧
      ∀ others ending, Walk ofChar terminator escape t others ending →
        others = pieces ∧ ending = last) ∧
    ((block ofChar start terminator escape).Yields input none ↔ start.Yields input none ∨
      ∃ m pieces, start.Yields input (some m) ∧
        Walk ofChar terminator escape m.rest pieces [] ∧ terminator.Yields [] none) ∧
    ∀ o, (block ofChar start terminator escape).Yields input (some o) ↔
      ∃ m pieces last closing, start.Yields input (some m) ∧
        Walk ofChar terminator escape m.rest pieces last ∧ terminator.Yields last (some closing) ∧
        o = ⟨closing.rest, m.produced ++ pieces ++ closing.produced⟩ := by
  have walks (t : Text) := walkEnds ofChar second third t
  have ends := blockEnds ofChar first second third input
  refine ⟨?_, fun t => ?_, ⟨fun missed => ?_, ?_⟩, fun o => ⟨blockMatches first second third, ?_⟩⟩
  · rcases ends with ⟨-, missed⟩ | ⟨m, pieces, last, found, -, -, -, yields⟩
    · exact ⟨none, missed⟩
    · exact ⟨_, yields⟩
  · obtain ⟨pieces, last, walk⟩ := walks t
    exact ⟨pieces, last, walk, fun _ _ other => walkUnique second third walk other⟩
  · rcases ends with ⟨unopened, -⟩ | ⟨m, pieces, last, found, opened, walk, closed, yields⟩
    · exact .inl unopened
    · cases found with
      | some closing => cases Except.ok.inj (yields.symm.trans missed)
      | none =>
        obtain rfl := walkOpen walk closed
        exact .inr ⟨m, pieces, opened, walk, closed⟩
  · rintro (unopened | ⟨m, pieces, opened, walk, closed⟩)
    · exact blockMiss unopened
    · exact blockYields second third opened walk closed
  · rintro ⟨m, pieces, last, closing, opened, walk, closed, rfl⟩
    exact blockYields second third opened walk closed

theorem blockWalksDoubledQuotes :
    let quote := literal "\""
    let doubled := literal "\"\""
    (∀ n, quote.Advances n 0) ∧ (∀ n, doubled.Advances n 1) ∧
      (block Char.toString quote quote doubled).Yields "\"a\"\"é\"b".toList
        (some ⟨['b'], ["\"", "a", "\"\"", "é", "\""]⟩) := by
  intro quote doubled
  have answers (n : Nat) : quote.Advances n 0 := advancesAny (literalAdvances _)
  have advances (n : Nat) : doubled.Advances n 1 := literalAdvances _
  obtain ⟨-, -, -, matched⟩ :=
    blockWalksItsContent Char.toString answers answers advances "\"a\"\"é\"b".toList
  have close : Walk Char.toString quote doubled ['"', 'b'] [] ['"', 'b'] :=
    .stop rfl (.inr ⟨⟨['b'], ["\""]⟩, rfl⟩)
  have escaped : Walk Char.toString quote doubled ['"', '"', 'é', '"', 'b'] ["\"\"", "é"] ['"', 'b'] :=
    .escaped (m := ⟨['é', '"', 'b'], ["\"\""]⟩) rfl (.scalar rfl rfl close)
  exact ⟨answers, advances, (matched _).mpr
    ⟨⟨['a', '"', '"', 'é', '"', 'b'], ["\""]⟩, _, _, ⟨['b'], ["\""]⟩, rfl, .scalar rfl rfl escaped, rfl, rfl⟩⟩

end Descent.Parser
