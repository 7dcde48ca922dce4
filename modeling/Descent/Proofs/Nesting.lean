import Descent.Parens
import Descent.Proofs.Leftover
import Descent.Proofs.Outcome
import Descent.Proofs.SelfReference
/-!
Pairs of delimiters with pairs inside. Where an inner pair is not closed, its opening scalar is read
as content, and the content goes on exactly where the inner one did; it then reaches the end of the
text as the inner one did, so the outer pair is not closed either. Hence a text starts with a pair
exactly when it is closed, and the pair ends where the delimiters are for the first time equally
many.
-/
namespace Descent

inductive Balanced (o c : Char) : Text → Prop
  | nil : Balanced o c []
  | other {a t} (notOpening : a ≠ o) (notClosing : a ≠ c) (rest : Balanced o c t) :
      Balanced o c (a :: t)
  | pair {t u} (inner : Balanced o c t) (rest : Balanced o c u) :
      Balanced o c (o :: (t ++ c :: u))

def Level (o c : Char) (w : Text) : Prop :=
  w ≠ [] ∧ w.count o = w.count c

def Closes (o c : Char) (input : Text) : Prop :=
  ∃ u rest, Balanced o c u ∧ input = u ++ c :: rest

section
variable {o c : Char}

theorem closingUnique (distinct : o ≠ c) {u v s t : Text} (first : Balanced o c u)
    (second : Balanced o c v) (same : u ++ c :: s = v ++ c :: t) : u = v ∧ s = t := by
  induction first generalizing v s t with
  | nil =>
    cases second with
    | nil => simpa using same
    | other _ notClosing _ => exact absurd (List.cons.inj same).1.symm notClosing
    | pair _ _ => exact absurd (List.cons.inj same).1.symm distinct
  | other notOpening notClosing _ ih =>
    cases second with
    | nil => exact absurd (List.cons.inj same).1 notClosing
    | other _ _ rest =>
      obtain ⟨rfl, tails⟩ := List.cons.inj same
      obtain ⟨rfl, rfl⟩ := ih rest tails
      exact ⟨rfl, rfl⟩
    | pair _ _ => exact absurd (List.cons.inj same).1 notOpening
  | @pair t₁ u₁ _ _ inner rest =>
    cases second with
    | nil => exact absurd (List.cons.inj same).1 distinct
    | other notOpening _ _ => exact absurd (List.cons.inj same).1.symm notOpening
    | @pair t₂ u₂ inside behind =>
      have tails : t₁ ++ c :: (u₁ ++ c :: s) = t₂ ++ c :: (u₂ ++ c :: t) := by simpa using same
      obtain ⟨rfl, behinds⟩ := inner inside tails
      obtain ⟨rfl, rfl⟩ := rest behind behinds
      exact ⟨rfl, rfl⟩

theorem beforeOrBehind {v u rest : Text} (before : v <+: u ++ c :: rest) :
    v <+: u ∨ ∃ w, v = u ++ c :: w ∧ w <+: rest := by
  rcases List.prefix_or_prefix_of_prefix before (List.prefix_append u _) with within | ⟨w, rfl⟩
  · exact .inl within
  · have behind := (List.prefix_append_right_inj u).mp before
    cases w with
    | nil => exact .inl (by simp)
    | cons d w =>
      obtain ⟨rfl, after⟩ := List.cons_prefix_cons.mp behind
      exact .inr ⟨w, rfl, after⟩

theorem balancedCounts (distinct : o ≠ c) {u : Text} (balanced : Balanced o c u) :
    u.count o = u.count c ∧ ∀ v, v <+: u → v.count c ≤ v.count o := by
  induction balanced with
  | nil => exact ⟨rfl, fun v before => by simp [List.prefix_nil.mp before]⟩
  | @other a t notOpening notClosing _ ih =>
    refine ⟨by simpa [notOpening, notClosing] using ih.1, fun v before => ?_⟩
    cases v with
    | nil => simp
    | cons b v =>
      obtain ⟨rfl, inside⟩ := List.cons_prefix_cons.mp before
      simpa [notOpening, notClosing] using ih.2 v inside
  | @pair t u _ _ inner rest =>
    have reversed := distinct.symm
    have levels := inner.1
    refine ⟨by simp [distinct, reversed, levels, rest.1]; omega, fun v before => ?_⟩
    cases v with
    | nil => simp
    | cons b v =>
      obtain ⟨rfl, opened⟩ := List.cons_prefix_cons.mp before
      rcases beforeOrBehind opened with within | ⟨w, rfl, behind⟩
      · have inside := inner.2 v within
        simp [distinct]
        omega
      · have after := rest.2 w behind
        simp [distinct, reversed]
        omega

theorem closesOther {a : Char} {t : Text} (notOpening : a ≠ o) (notClosing : a ≠ c)
    (closes : Closes o c t) : Closes o c (a :: t) := by
  obtain ⟨u, rest, balanced, rfl⟩ := closes
  exact ⟨a :: u, rest, .other notOpening notClosing balanced, rfl⟩

theorem closesPair {u t : Text} (inner : Balanced o c u) (closes : Closes o c t) :
    Closes o c (o :: (u ++ c :: t)) := by
  obtain ⟨v, rest, balanced, rfl⟩ := closes
  exact ⟨o :: (u ++ c :: v), rest, .pair inner balanced, by simp⟩

theorem aheadBehind (distinct : o ≠ c) {u v rest : Text} (inner : Balanced o c u)
    (before : v <+: u ++ c :: rest) (ahead : (o :: v).count o < (o :: v).count c) :
    ∃ w, w <+: rest ∧ w.count o < w.count c := by
  have counted := balancedCounts distinct inner
  have opened : v.count o + 1 < v.count c := by simpa [distinct] using ahead
  rcases beforeOrBehind before with within | ⟨w, rfl, after⟩
  · have notAhead := counted.2 v within
    omega
  · refine ⟨w, after, ?_⟩
    simp only [List.count_append, List.count_cons_self, List.count_cons_of_ne distinct.symm,
      counted.1] at opened
    omega

theorem closesOfAhead (distinct : o ≠ c) {input v : Text} (before : v <+: input)
    (ahead : v.count o < v.count c) : Closes o c input := by
  induction size : input.length using Nat.strongRecOn generalizing input v with
  | ind _ ih => ?_
  subst size
  cases v with
  | nil => simp at ahead
  | cons a v =>
    obtain ⟨rest, rfl⟩ := before
    have starts : v <+: v ++ rest := List.prefix_append v rest
    have shorter : (v ++ rest).length < (a :: v ++ rest).length := Nat.lt_succ_self _
    by_cases closing : a = c
    · subst closing
      exact ⟨[], v ++ rest, .nil, rfl⟩
    by_cases opening : a = o
    · subst opening
      have inside : v.count a < v.count c := by
        simp only [List.count_cons_self, List.count_cons_of_ne closing] at ahead
        omega
      obtain ⟨u, behind, balanced, same⟩ := ih _ shorter starts inside rfl
      have lengths := congrArg List.length same
      rw [same] at starts
      obtain ⟨w, after, later⟩ := aheadBehind distinct balanced starts ahead
      rw [List.cons_append, same]
      refine closesPair balanced (ih behind.length ?_ after later rfl)
      simp only [List.length_cons, List.length_append] at lengths ⊢
      omega
    · have inside : v.count o < v.count c := by
        rwa [List.count_cons_of_ne opening, List.count_cons_of_ne closing] at ahead
      exact closesOther opening closing (ih _ shorter starts inside rfl)

end

namespace Parens
open Descent.Parser (literal map content many block one unrolled Yields Computes)

variable {o c : Char} {p : Parser Value} {x rest : Text} {values : List Value}

def delimiter (c : Char) : Parser Value :=
  map .string (literal c.toString)

def inside (c : Char) (inner : Parser Value) : Parser Value :=
  many (content .char (delimiter c) inner)

def pairOf (o c : Char) (inner : Parser Value) : Parser Value :=
  block .char (delimiter o) (delimiter c) inner

def piece (o c a : Char) : Value :=
  if a = o ∨ a = c then .string a.toString else .char a

theorem delimiterHere : (delimiter c).Yields (c :: x) (some ⟨x, [.string c.toString]⟩) := by
  have here := Parser.mapYields (f := Value.string) (Parser.literalComputes c (c :: x))
  simpa [one, delimiter] using here

theorem delimiterMiss (missing : x.head? ≠ some c) : (delimiter c).Yields x none := by
  have missed := Parser.mapYields (f := Value.string) (Parser.literalComputes c x)
  cases x with
  | nil => exact missed
  | cons a x =>
    have different : c ≠ a := by simpa [eq_comm] using missing
    simpa [one, different, delimiter] using missed

theorem insideStop (missed : p.Yields x none) (ends : x = [] ∨ x.head? = some c) :
    (inside c p).Yields x (some ⟨x, []⟩) := by
  refine Parser.manyStop (Parser.choiceLater missed (Parser.choiceLater ?_ rfl))
  cases x with
  | nil =>
    exact Parser.sequenceStep (Parser.notAheadHere (delimiterMiss (by simp)))
      (Parser.sequenceMiss (Parser.mapYields (Parser.anyCharComputes [])))
  | cons a x =>
    obtain rfl : a = c := by simpa using ends
    exact Parser.sequenceMiss (Parser.notAheadMiss delimiterHere)

theorem insidePlain {a : Char} (missed : p.Yields (a :: x) none) (plain : a ≠ c)
    (others : (inside c p).Yields x (some ⟨rest, values⟩)) :
    (inside c p).Yields (a :: x) (some ⟨rest, .char a :: values⟩) := by
  have scalar : (content .char (delimiter c) p).Yields (a :: x) (some ⟨x, [.char a]⟩) := by
    refine Parser.choiceLater missed (Parser.choiceHere ?_)
    exact Parser.sequenceStep (Parser.notAheadHere (delimiterMiss (by simpa using plain)))
      (Parser.sequenceStep (Parser.mapYields (Parser.anyCharComputes (a :: x)))
        Parser.sequenceNil)
  exact Parser.manyStep scalar (Text.byteLengthCons a x) others

theorem insideInner {y : Text} {inner : List Value} (here : p.Yields x (some ⟨y, inner⟩))
    (shorter : y.byteLength < x.byteLength) (others : (inside c p).Yields y (some ⟨rest, values⟩)) :
    (inside c p).Yields x (some ⟨rest, inner ++ values⟩) :=
  Parser.manyStep (Parser.choiceHere here) shorter others

theorem pairMiss (missing : x.head? ≠ some o) : (pairOf o c p).Yields x none :=
  Parser.sequenceMiss (delimiterMiss missing)

theorem pairClosed (closed : (inside c p).Yields x (some ⟨c :: rest, values⟩)) :
    (pairOf o c p).Yields (o :: x)
      (some ⟨rest, .string o.toString :: (values ++ [.string c.toString])⟩) :=
  Parser.sequenceStep delimiterHere (Parser.sequenceStep closed
    (Parser.sequenceStep delimiterHere Parser.sequenceNil))

theorem pairOpen (endless : (inside c p).Yields x (some ⟨[], values⟩)) :
    (pairOf o c p).Yields (o :: x) none :=
  Parser.sequenceStep delimiterHere (Parser.sequenceStep endless
    (Parser.sequenceMiss (delimiterMiss (by simp))))

theorem pieceOpening : piece o c o = .string o.toString := if_pos (.inl rfl)

theorem pieceClosing : piece o c c = .string c.toString := if_pos (.inr rfl)

theorem pieceOther {a : Char} (notOpening : a ≠ o) (notClosing : a ≠ c) : piece o c a = .char a :=
  if_neg (by simp [notOpening, notClosing])

def InsideOutcome (o c : Char) (depth : Nat) (x : Text) : Prop :=
  (∃ u rest, Balanced o c u ∧ x = u ++ c :: rest ∧
    (inside c (unrolled (pairOf o c) depth)).Yields x
      (some ⟨c :: rest, u.map (piece o c)⟩)) ∨
  (¬ Closes o c x ∧
    ∃ values, (inside c (unrolled (pairOf o c) depth)).Yields x (some ⟨[], values⟩))

theorem closesCons {a : Char} (distinct : o ≠ c) (notClosing : a ≠ c) (closes : Closes o c (a :: x)) :
    (a ≠ o ∧ Closes o c x) ∨
      (a = o ∧ ∃ u rest, Balanced o c u ∧ x = u ++ c :: rest ∧ Closes o c rest) := by
  obtain ⟨u, behind, balanced, same⟩ := closes
  cases balanced with
  | nil => exact absurd (List.cons.inj same).1 notClosing
  | other notOpening _ rest =>
    obtain ⟨rfl, behinds⟩ := List.cons.inj same
    exact .inl ⟨notOpening, _, behind, rest, behinds⟩
  | @pair t u inner rest =>
    obtain ⟨rfl, behinds⟩ := List.cons.inj same
    exact .inr ⟨rfl, t, u ++ c :: behind, inner, by simpa using behinds, u, behind, rest, rfl⟩

section Steps

variable {a : Char} {depth : Nat} {u y : Text}

theorem outcomeEnd : InsideOutcome o c (depth + 1) [] := by
  refine .inr ⟨fun closes => ?_, [], insideStop (pairMiss (by simp)) (.inl rfl)⟩
  obtain ⟨u, behind, -, same⟩ := closes
  simp at same

theorem outcomeClosing (distinct : o ≠ c) : InsideOutcome o c (depth + 1) (c :: x) := by
  have other : (c :: x).head? ≠ some o := by simpa using distinct.symm
  exact .inl ⟨[], x, .nil, rfl, insideStop (pairMiss other) (.inr rfl)⟩

theorem outcomeOther (distinct : o ≠ c) (notOpening : a ≠ o) (notClosing : a ≠ c)
    (next : InsideOutcome o c (depth + 1) x) : InsideOutcome o c (depth + 1) (a :: x) := by
  have missed : (unrolled (pairOf o c) (depth + 1)).Yields (a :: x) none :=
    pairMiss (by simpa using notOpening)
  rcases next with ⟨u, y, balanced, rfl, stops⟩ | ⟨never, values, endless⟩
  · refine .inl ⟨a :: u, y, .other notOpening notClosing balanced, rfl, ?_⟩
    have whole := insidePlain missed notClosing stops
    simpa [pieceOther notOpening notClosing] using whole
  · refine .inr ⟨fun closes => ?_, _, insidePlain missed notClosing endless⟩
    rcases closesCons distinct notClosing closes with ⟨-, later⟩ | ⟨same, -⟩
    · exact never later
    · exact notOpening same

theorem outcomePair (distinct : o ≠ c) (balanced : Balanced o c u)
    (closed : (inside c (unrolled (pairOf o c) depth)).Yields (u ++ c :: y)
      (some ⟨c :: y, u.map (piece o c)⟩))
    (after : InsideOutcome o c (depth + 1) y) :
    InsideOutcome o c (depth + 1) (o :: (u ++ c :: y)) := by
  have here : (unrolled (pairOf o c) (depth + 1)).Yields (o :: (u ++ c :: y)) _ :=
    pairClosed closed
  have shorter : y.byteLength < Text.byteLength (o :: (u ++ c :: y)) :=
    Text.byteLengthShorter ⟨o :: (u ++ [c]), by simp⟩ (by simp; omega)
  rcases after with ⟨v, rest, later, rfl, stops⟩ | ⟨never, values, endless⟩
  · refine .inl ⟨o :: (u ++ c :: v), rest, .pair balanced later, by simp, ?_⟩
    have whole := insideInner here shorter stops
    simpa [pieceOpening, pieceClosing] using whole
  · refine .inr ⟨fun closes => ?_, _, insideInner here shorter endless⟩
    rcases closesCons distinct distinct closes with ⟨different, -⟩ | ⟨-, t, z, first, same, last⟩
    · exact different rfl
    · obtain ⟨-, rfl⟩ := closingUnique distinct balanced first same
      exact never last

theorem outcomeUnclosed {values : List Value} (distinct : o ≠ c) (never : ¬ Closes o c x)
    (endless : (inside c (unrolled (pairOf o c) depth)).Yields x (some ⟨[], values⟩))
    (next : InsideOutcome o c (depth + 1) x) : InsideOutcome o c (depth + 1) (o :: x) := by
  have missed : (unrolled (pairOf o c) (depth + 1)).Yields (o :: x) none := pairOpen endless
  rcases next with ⟨u, y, balanced, same, -⟩ | ⟨-, others, on⟩
  · exact absurd ⟨u, y, balanced, same⟩ never
  · -- The opening scalar is content, and what follows it was already found not to be closed.
    refine .inr ⟨fun closes => ?_, _, insidePlain missed distinct on⟩
    rcases closesCons distinct distinct closes with ⟨different, -⟩ | ⟨-, t, z, first, same, -⟩
    · exact different rfl
    · exact never ⟨t, z, first, same⟩

end Steps

theorem insideOutcome (distinct : o ≠ c) (x : Text) (depth : Nat) (deep : x.length < depth) :
    InsideOutcome o c depth x := by
  induction size : x.length using Nat.strongRecOn generalizing x depth with
  | ind _ ih => ?_
  subst size
  obtain _ | depth := depth
  · contradiction
  cases x with
  | nil => exact outcomeEnd
  | cons a x =>
    rw [List.length_cons] at deep
    have next := ih x.length (Nat.lt_succ_self _) x (depth + 1) (by omega) rfl
    by_cases closing : a = c
    · subst closing
      exact outcomeClosing distinct
    by_cases opening : a = o
    · subst opening
      -- The pair is tried one level further down, where what follows is read the same way.
      rcases ih x.length (Nat.lt_succ_self _) x depth (by omega) rfl with
        ⟨u, y, balanced, rfl, closed⟩ | ⟨never, values, endless⟩
      · have shorter : y.length < (u ++ c :: y).length + 1 := by
          simp only [List.length_append, List.length_cons]
          omega
        exact outcomePair distinct balanced closed
          (ih y.length shorter y (depth + 1) (by omega) rfl)
      · exact outcomeUnclosed distinct never endless next
    · exact outcomeOther distinct opening closing next

def texts (o c : Char) : Grammar :=
  .wrap (.map Value.toText) (nested o.toString c.toString)

theorem textsParser (o c : Char) (input : Text) : (texts o c).parser input =
    map Value.toText (unrolled (pairOf o c) (input.length + 2)) input :=
  Store.parserUnrolled (pairOf o c) (map Value.toText) (fun _ => rfl) (fun _ => rfl)
    List.mem_cons_self input

theorem pieceText (o c a : Char) : (piece o c a).toText = .string a.toString := by
  unfold piece
  split <;> rfl

theorem textsOutcome (distinct : o ≠ c) (input : Text) :
    (∃ u rest, Balanced o c u ∧ input = o :: (u ++ c :: rest) ∧ (texts o c).parser.Yields input
      (some ⟨rest, (o :: (u ++ [c])).map fun a => .string a.toString⟩)) ∨
    ((¬ ∃ x, input = o :: x ∧ Closes o c x) ∧ (texts o c).parser.Yields input none) := by
  have same := textsParser o c input
  unfold Yields
  rw [same]
  by_cases starts : input.head? = some o
  · obtain ⟨x, rfl⟩ := List.head?_eq_some_iff.mp starts
    rcases insideOutcome distinct x (x.length + 2) (by omega) with
      ⟨u, rest, balanced, rfl, closed⟩ | ⟨never, values, endless⟩
    · have scalars : (Value.string o.toString :: (u.map (piece o c) ++ [.string c.toString])).map
          Value.toText = (o :: (u ++ [c])).map fun a => .string a.toString := by
        rw [← pieceOpening (c := c), ← pieceClosing (o := o)]
        simp [Function.comp_def, pieceText]
      refine .inl ⟨u, rest, balanced, rfl, ?_⟩
      rw [← scalars]
      exact Parser.mapYields (f := Value.toText) (pairClosed closed)
    · refine .inr ⟨fun opens => never ?_,
        Parser.mapYields (f := Value.toText) (pairOpen (o := o) endless)⟩
      obtain ⟨y, same, closes⟩ := opens
      exact (List.cons.inj same).2 ▸ closes
  · refine .inr ⟨fun opens => starts ?_, Parser.mapYields (f := Value.toText) (pairMiss starts)⟩
    obtain ⟨y, same, -⟩ := opens
    rw [same, List.head?_cons]

theorem pairLevel (distinct : o ≠ c) {u : Text} (balanced : Balanced o c u) :
    Level o c (o :: (u ++ [c])) ∧
      ∀ v, v <+: o :: (u ++ [c]) → Level o c v → v = o :: (u ++ [c]) := by
  have counted := balancedCounts distinct balanced
  have reversed := distinct.symm
  refine ⟨⟨by simp, by simp [distinct, reversed, counted.1]⟩, fun v before level => ?_⟩
  obtain ⟨some, equal⟩ := level
  cases v with
  | nil => contradiction
  | cons a v =>
    obtain ⟨rfl, behind⟩ := List.cons_prefix_cons.mp before
    rcases beforeOrBehind behind with within | ⟨w, rfl, after⟩
    · have notAhead := counted.2 v within
      simp [distinct] at equal
      omega
    · rw [List.prefix_nil.mp after]

theorem opensOfLevel (distinct : o ≠ c) {input w : Text} (starts : input.head? = some o)
    (before : w <+: input) (level : Level o c w) : ∃ x, input = o :: x ∧ Closes o c x := by
  obtain ⟨x, rfl⟩ := List.head?_eq_some_iff.mp starts
  obtain ⟨some, equal⟩ := level
  cases w with
  | nil => contradiction
  | cons a w =>
    obtain ⟨rfl, behind⟩ := List.cons_prefix_cons.mp before
    refine ⟨x, rfl, closesOfAhead distinct behind ?_⟩
    simp [distinct] at equal
    omega

theorem shortestUnique {input v w : Text} (before : v <+: input) (before' : w <+: input)
    (level : Level o c v) (level' : Level o c w) (least : ∀ u, u <+: v → Level o c u → u = v)
    (least' : ∀ u, u <+: w → Level o c u → u = w) : v = w := by
  -- One of them begins with the other, and neither has a shorter one.
  rcases List.prefix_or_prefix_of_prefix before before' with inside | inside
  · exact least' v inside level
  · exact (least w inside level').symm

theorem pairFound (distinct : o ≠ c) {u : Text} (balanced : Balanced o c u) (m : Match Value) :
    some ⟨rest, (o :: (u ++ [c])).map fun a => .string a.toString⟩ = some m ↔
      ∃ w, o :: (u ++ c :: rest) = w ++ m.rest ∧ w.head? = some o ∧ Level o c w ∧
        (∀ v, v <+: w → Level o c v → v = w) ∧ m.produced = w.map fun a => .string a.toString := by
  obtain ⟨level, least⟩ := pairLevel distinct balanced
  have splits : o :: (u ++ c :: rest) = (o :: (u ++ [c])) ++ rest := by simp
  rw [splits]
  constructor
  · intro same
    cases same
    exact ⟨_, rfl, rfl, level, least, rfl⟩
  · intro found
    obtain ⟨w, same, -, level', least', made⟩ := found
    obtain rfl := shortestUnique ⟨rest, rfl⟩ ⟨m.rest, same.symm⟩ level level' least least'
    obtain ⟨left, produced⟩ := m
    rw [List.append_cancel_left same, ← made]

theorem scalarsYield {input : Text} {found : Option (Match Value)}
    (read : (texts '(' ')').parser.Yields input found)
    (fits : ∀ m, found = some m → m.rest.byteLength ≤ input.byteLength) : (scalars? input).ending =
      .ok ((found.filter fun m => m.rest.isEmpty).map fun m => m.produced.map Value.text) := by
  have whole := parseAllEnding matcher.assembled.parser input
  have ended : (matcher.assembled.parser input).ending = .ok found := read
  rw [ended] at whole
  unfold scalars?
  dsimp only [Run.behind]
  cases found with
  | none =>
    rw [Run.endingBind _ whole]
    rfl
  | some m =>
    by_cases all : m.rest = []
    · simp only [if_pos all] at whole
      rw [Run.endingBind _ whole]
      simp [all, Run.pureEq, Option.filter_some]
    · simp only [if_neg all, if_pos (fits m rfl)] at whole
      rw [Run.endingBind _ whole]
      simp [all, Run.pureEq, Option.filter_some]

theorem scalarsOutcome (input : Text) :
    ((∃ u, Balanced '(' ')' u ∧ input = '(' :: (u ++ [')'])) ∧
      (scalars? input).ending = .ok (some (input.map Char.toString))) ∨
    ((¬ ∃ u, Balanced '(' ')' u ∧ input = '(' :: (u ++ [')'])) ∧
      (scalars? input).ending = .ok none) := by
  have distinct : '(' ≠ ')' := by decide
  rcases textsOutcome distinct input with ⟨u, rest, balanced, rfl, here⟩ | ⟨never, missed⟩
  · have splits : ('(' :: (u ++ [')'])) ++ rest = '(' :: (u ++ ')' :: rest) := by simp
    have fits : Text.byteLength rest ≤ Text.byteLength ('(' :: (u ++ ')' :: rest)) := by
      rw [← splits, Text.byteLengthAppend]
      exact Nat.le_add_left _ _
    have ended := scalarsYield here fun m same => by cases same; exact fits
    by_cases all : rest = []
    · subst all
      have texts : (('(' :: (u ++ [')'])).map fun a => Value.string a.toString).map Value.text =
          ('(' :: (u ++ [')'])).map Char.toString := by simp [Function.comp_def, Value.text]
      exact .inl ⟨⟨u, balanced, rfl⟩, texts ▸ ended⟩
    · refine .inr ⟨fun whole => ?_, by simpa [Option.filter_some, all] using ended⟩
      obtain ⟨v, other, same⟩ := whole
      exact all (closingUnique distinct balanced other (List.cons.inj same).2).2
  · refine .inr ⟨fun whole => never ?_, by simpa using scalarsYield missed fun m none => by cases none⟩
    obtain ⟨u, balanced, rfl⟩ := whole
    exact ⟨u ++ [')'], rfl, u, [], balanced, rfl⟩

theorem pairReadsShortestLevel :
    (∀ (o c : Char), o ≠ c → ∀ input : Text, ∃ found,
      ((texts o c).parser input).ending = .ok found ∧
      (∀ m, found = some m ↔ ∃ w, input = w ++ m.rest ∧ w.head? = some o ∧ Level o c w ∧
        (∀ v, v <+: w → Level o c v → v = w) ∧ m.produced = w.map fun a => .string a.toString) ∧
      (found = none ↔ ¬ (input.head? = some o ∧ ∃ w, w <+: input ∧ Level o c w))) ∧
    ∀ input : Text,
      (∀ scalars, (scalars? input).ending = .ok (some scalars) ↔
        scalars = input.map Char.toString ∧
          ∃ u, Balanced '(' ')' u ∧ input = '(' :: (u ++ [')'])) ∧
      ((¬ ∃ u, Balanced '(' ')' u ∧ input = '(' :: (u ++ [')'])) →
        (scalars? input).ending = .ok none) := by
  constructor
  · intro o c distinct input
    rcases textsOutcome distinct input with ⟨u, rest, balanced, rfl, here⟩ | ⟨never, missed⟩
    · refine ⟨_, here, pairFound distinct balanced, ?_⟩
      have begins : o :: (u ++ [c]) <+: o :: (u ++ c :: rest) := ⟨rest, by simp⟩
      have level := (pairLevel distinct balanced).1
      simp only [reduceCtorEq, false_iff, Classical.not_not]
      exact ⟨rfl, _, begins, level⟩
    · refine ⟨none, missed, fun m => ?_, ?_⟩
      · simp only [reduceCtorEq, false_iff]
        rintro ⟨w, rfl, starts, level, -⟩
        have begins : (w ++ m.rest).head? = some o := by simp [starts]
        exact never (opensOfLevel distinct begins (List.prefix_append w m.rest) level)
      · simp only [true_iff]
        rintro ⟨starts, w, before, level⟩
        exact never (opensOfLevel distinct starts before level)
  · intro input
    rcases scalarsOutcome input with ⟨pair, ended⟩ | ⟨never, ended⟩
    · rw [ended]
      simp [pair, eq_comm]
    · rw [ended]
      simp [never]

theorem pairReadsShortestLevelAt : '(' ≠ ')' ∧
    (∃ found, ((texts '(' ')').parser "(()".toList).ending = .ok found ∧
      (found = none ↔ ¬ ("(()".toList.head? = some '(' ∧
        ∃ w, w <+: "(()".toList ∧ Level '(' ')' w))) ∧
    (¬ ∃ u, Balanced '(' ')' u ∧ "(()".toList = '(' :: (u ++ [')'])) ∧
    (scalars? "(()".toList).ending = .ok none := by
  have distinct : '(' ≠ ')' := by decide
  obtain ⟨found, ended, -, missed⟩ := pairReadsShortestLevel.1 '(' ')' distinct "(()".toList
  have never : ¬ ∃ u, Balanced '(' ')' u ∧ "(()".toList = '(' :: (u ++ [')']) := by
    rintro ⟨u, balanced, same⟩
    have inner : u = ['('] := by
      have tails : ['('] ++ [')'] = u ++ [')'] := (List.cons.inj same).2
      exact (List.append_inj_left' tails rfl).symm
    have counted := (balancedCounts distinct balanced).1
    rw [inner] at counted
    exact absurd counted (by decide)
  exact ⟨distinct, ⟨found, ended, missed⟩, never, (pairReadsShortestLevel.2 "(()".toList).2 never⟩

end Parens
end Descent
