import Mathlib.Data.List.Forall2
import Descent.Grammar
/-!
Parsers that are built in the same way of parts that are related. A relation between runs that stays
where runs are put one behind the other stays in every way to build a parser but a span, in which the run
is not only put behind others.
-/
namespace Descent

structure Run.Composes (related : (α : Type) → (α → Prop) → Run α → Run α → Prop) : Prop where
  pure {α : Type} {good : α → Prop} {a : α} (holds : good a) : related α good (pure a) (pure a)
  bind {α β : Type} {good : α → Prop} {better : β → Prop} {r r' : Run α} {next next' : α → Run β}
    (first : related α good r r') (rest : ∀ a, good a → related β better (next a) (next' a)) :
    related β better (r >>= next) (r' >>= next')
  stalls {α : Type} {good : α → Prop} :
    related α good (panic .stalledRepetition) (panic .stalledRepetition)

namespace Parser
open Run (Composes)

variable {α β : Type} {related : (α : Type) → (α → Prop) → Run α → Run α → Prop}
  {texts : Text → Prop} {p q : Parser α} {ps qs : List (Parser α)}

def Stays (texts : Text → Prop) (found : Option (Match α)) : Prop :=
  ∀ m, found = some m → texts m.rest

theorem staysNone : Stays texts (none : Option (Match α)) := by simp [Stays]

theorem staysSome {m : Match α} (among : texts m.rest) : Stays texts (some m) := by
  intro n same
  exact Option.some.inj same ▸ among

def Related (related : (α : Type) → (α → Prop) → Run α → Run α → Prop) (texts : Text → Prop)
    (p q : Parser α) : Prop :=
  ∀ input, texts input → related _ (Stays texts) (p input) (q input)

theorem choiceRelated (composes : Composes related)
    (members : List.Forall₂ (Related related texts) ps qs) :
    Related related texts (choice ps) (choice qs) := by
  intro input among
  induction members with
  | nil => exact composes.pure staysNone
  | cons first _ ih =>
    refine composes.bind (first input among) fun found stays => ?_
    cases found with
    | none => exact ih
    | some m => exact composes.pure stays

theorem sequenceRelated (composes : Composes related)
    (members : List.Forall₂ (Related related texts) ps qs) :
    Related related texts (sequence ps) (sequence qs) := by
  induction members with
  | nil => exact fun input among => composes.pure (staysSome among)
  | cons first _ ih =>
    intro input among
    refine composes.bind (first input among) fun found stays => ?_
    cases found with
    | none => exact composes.pure staysNone
    | some m =>
      refine composes.bind (ih m.rest (stays m rfl)) fun next stays => ?_
      cases next with
      | none => exact composes.pure staysNone
      | some n => exact composes.pure (staysSome (stays n rfl))

theorem repeatedRelated (composes : Composes related) (alike : Related related texts p q)
    (input : Text) (among : texts input) :
    related _ (fun m => texts m.rest) (repeated p input) (repeated q input) := by
  induction size : input.byteLength using Nat.strongRecOn generalizing input with
  | ind _ ih => ?_
  subst size
  rw [repeated, repeated]
  refine composes.bind (alike input among) fun found stays => ?_
  cases found with
  | none => exact composes.pure among
  | some m =>
    dsimp only
    split
    · rename_i shrinks
      exact composes.bind (ih _ shrinks m.rest (stays m rfl) rfl) fun n later => composes.pure later
    · exact composes.stalls

theorem manyRelated (composes : Composes related) (alike : Related related texts p q) :
    Related related texts (many p) (many q) := fun input among =>
  composes.bind (repeatedRelated composes alike input among) fun _ later =>
    composes.pure (staysSome later)

theorem refineRelated (composes : Composes related) {f : Match α → Option (Match β)}
    (kept : ∀ m o, f m = some o → o.rest = m.rest) (alike : Related related texts p q) :
    Related related texts (refine f p) (refine f q) := fun input among =>
  composes.bind (alike input among) fun found stays => composes.pure fun o same => by
    obtain ⟨m, rfl, made⟩ := Option.bind_eq_some_iff.mp same
    exact kept m o made ▸ stays m rfl

theorem mapAllRelated? (composes : Composes related) (f : List α → Option (List β))
    (alike : Related related texts p q) :
    Related related texts (mapAll? f p) (mapAll? f q) :=
  refineRelated composes (fun m o made => by
    obtain ⟨values, -, rfl⟩ := Option.map_eq_some_iff.mp made
    rfl) alike

theorem mapAllRelated (composes : Composes related) (f : List α → List β)
    (alike : Related related texts p q) : Related related texts (mapAll f p) (mapAll f q) :=
  refineRelated composes (fun _ _ made => Option.some.inj made ▸ rfl) alike

theorem foldRelated (composes : Composes related) (f : α → β → β) (seed : β)
    (alike : Related related texts p q) : Related related texts (fold f seed p) (fold f seed q) :=
  mapAllRelated composes (fun values => [values.foldl (fun reduced value => f value reduced) seed]) alike

theorem foldRelated? (composes : Composes related) (f : α → β → Option β) (seed : β)
    (alike : Related related texts p q) : Related related texts (fold? f seed p) (fold? f seed q) :=
  mapAllRelated? composes
    (fun values => (values.foldlM (fun reduced value => f value reduced) seed).map ([·])) alike

theorem skipRelated (composes : Composes related) (alike : Related related texts p q) :
    Related related texts (skip p : Parser β) (skip q) :=
  mapAllRelated composes (fun _ => []) alike

theorem wholeRelated (composes : Composes related) (alike : Related related texts p q) :
    Related related texts (whole p) (whole q) :=
  refineRelated composes (fun m o made => by
    split at made
    · exact Option.some.inj made ▸ rfl
    · contradiction) alike

theorem notAheadRelated (composes : Composes related) (alike : Related related texts p q) :
    Related related texts (notAhead p : Parser β) (notAhead q) := fun input among =>
  composes.bind (alike input among) fun found _ => by
    cases found with
    | none => exact composes.pure (staysSome among)
    | some m => exact composes.pure staysNone

theorem anyCharRelated (composes : Composes related) (suffixes : ∀ c t, texts (c :: t) → texts t) :
    Related related texts anyChar anyChar := by
  intro input among
  cases input with
  | nil => exact composes.pure staysNone
  | cons c rest => exact composes.pure (staysSome (suffixes c rest among))

theorem betweenRelated (composes : Composes related) {γ δ : Type} {left left' : Parser γ}
    {right right' : Parser δ} (first : Related related texts left left')
    (middle : Related related texts p q) (last : Related related texts right right') :
    Related related texts (between left p right) (between left' q right') :=
  sequenceRelated composes (.cons (skipRelated composes first)
    (.cons middle (.cons (skipRelated composes last) .nil)))

theorem blockRelated (composes : Composes related) (suffixes : ∀ c t, texts (c :: t) → texts t)
    (ofChar : Char → α) {start start' terminator terminator' escape escape' : Parser α}
    (first : Related related texts start start')
    (second : Related related texts terminator terminator')
    (third : Related related texts escape escape') :
    Related related texts (block ofChar start terminator escape)
      (block ofChar start' terminator' escape') := by
  have scalar : Related related texts (map ofChar anyChar) (map ofChar anyChar) :=
    mapAllRelated composes _ (anyCharRelated composes suffixes)
  have plain := sequenceRelated composes
    (.cons (notAheadRelated composes second) (.cons scalar .nil))
  have piece := choiceRelated composes (.cons third (.cons plain .nil))
  exact sequenceRelated composes (.cons first (.cons (manyRelated composes piece) (.cons second .nil)))

theorem replicateRelated {relates : Parser α → Parser α → Prop} (n : Nat) (alike : relates p q) :
    List.Forall₂ relates (List.replicate n p) (List.replicate n q) := by
  induction n with
  | zero => exact .nil
  | succ n ih => exact .cons alike ih

end Parser

theorem Wrapper.parserRelated {related : (α : Type) → (α → Prop) → Run α → Run α → Prop}
    (composes : Run.Composes related) {texts : Text → Prop} (w : Wrapper) {p q : Parser Value}
    (spans : ∀ label, w = .traced label → Parser.Related related texts p q →
      Parser.Related related texts (Parser.traced label p) (Parser.traced label q))
    (alike : w.keeps = true → Parser.Related related texts p q) :
    Parser.Related related texts (w.parser p) (w.parser q) := by
  cases w with
  | many => exact Parser.manyRelated composes (alike rfl)
  | many1 =>
    exact Parser.sequenceRelated composes
      (.cons (alike rfl) (.cons (Parser.manyRelated composes (alike rfl)) .nil))
  | map f => exact Parser.mapAllRelated composes _ (alike rfl)
  | mapAll f => exact Parser.mapAllRelated composes f (alike rfl)
  | mapAll? f => exact Parser.mapAllRelated? composes f (alike rfl)
  | fold f seed => exact Parser.foldRelated composes f seed (alike rfl)
  | fold? f seed => exact Parser.foldRelated? composes f seed (alike rfl)
  | notAhead => exact Parser.notAheadRelated composes (alike rfl)
  | skip => exact Parser.skipRelated composes (alike rfl)
  | whole => exact Parser.wholeRelated composes (alike rfl)
  | traced label => exact spans label rfl (alike rfl)
  | times n =>
    cases n with
    | zero => exact Parser.sequenceRelated composes .nil
    | succ n => exact Parser.sequenceRelated composes (Parser.replicateRelated (n + 1) (alike rfl))

end Descent
