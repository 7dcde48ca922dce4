import Descent.Proofs.Leftover
import Descent.Proofs.Related
/-!
Two runs of one rule that differ in what its references do. The runs are the same, unless the first
stops for a reason for which the second may do anything, or the second for one for which the first may
have done anything. As nothing goes on behind a stop, every way to build a parser keeps such an
agreement, and so the whole rule has it where its references have it.
-/
namespace Descent

namespace Run

variable {α β : Type} {early late : Stop → Prop} {good : α → Prop} {r r' : Run α}

def Agrees (early late : Stop → Prop) (good : α → Prop) (r r' : Run α) : Prop :=
  (∃ s, r.ending = .error s ∧ early s) ∨ (∃ s, r'.ending = .error s ∧ late s) ∨
    r = r' ∧ ∀ a, r.ending = .ok a → good a

theorem agreesPure {a : α} (holds : good a) : (pure a : Run α).Agrees early late good (pure a) :=
  .inr (.inr ⟨rfl, fun _ ended => Except.ok.inj ended ▸ holds⟩)

theorem agreesRefl (holds : ∀ a, r.ending = .ok a → good a) : r.Agrees early late good r :=
  .inr (.inr ⟨rfl, holds⟩)

theorem agreesSame (agrees : r.Agrees (fun _ => False) (fun _ => False) good r') : r = r' := by
  rcases agrees with ⟨_, _, excused⟩ | ⟨_, _, excused⟩ | ⟨same, -⟩
  · exact excused.elim
  · exact excused.elim
  · exact same

theorem agreesFlip (agrees : r.Agrees early late good r') : r'.Agrees late early good r := by
  rcases agrees with stops | stops | ⟨rfl, holds⟩
  · exact .inr (.inl stops)
  · exact .inl stops
  · exact agreesRefl holds

theorem agreesBehind (before : Journal) (agrees : r.Agrees early late good r') :
    (r.behind before).Agrees early late good (r'.behind before) := by
  rcases agrees with stops | stops | ⟨same, holds⟩
  · exact .inl stops
  · exact .inr (.inl stops)
  · exact .inr (.inr ⟨by rw [same], holds⟩)

theorem agreesBind {better : β → Prop} {next next' : α → Run β}
    (first : r.Agrees early late good r')
    (rest : ∀ a, good a → (next a).Agrees early late better (next' a)) :
    (r >>= next).Agrees early late better (r' >>= next') := by
  obtain ⟨before, ending⟩ := r
  rcases first with ⟨s, stops, excused⟩ | ⟨s, stops, excused⟩ | ⟨rfl, holds⟩
  · cases stops
    exact .inl ⟨s, rfl, excused⟩
  · obtain ⟨before', ending'⟩ := r'
    cases stops
    exact .inr (.inl ⟨s, rfl, excused⟩)
  · cases ending with
    | error s => exact agreesRefl (by simp [bindError])
    | ok a =>
      rw [bindOk, bindOk]
      exact agreesBehind before (rest a (holds a rfl))

theorem agreesComposes : Composes fun _ => Agrees early late where
  pure := agreesPure
  bind := agreesBind
  stalls := agreesRefl (by simp [panic, stop])

end Run

namespace Parser

variable {α β : Type} {early late : Stop → Prop} {texts : Text → Prop} {p q : Parser α}
  {ps qs : List (Parser α)}

def Agrees (early late : Stop → Prop) (texts : Text → Prop) (p q : Parser α) : Prop :=
  ∀ input, texts input → (p input).Agrees early late (Stays texts) (q input)

theorem agreesAnywhere (p : Parser α) : p.Agrees early late (fun _ => True) p := fun _ _ =>
  Run.agreesRefl fun _ _ _ _ => trivial

theorem agreesFlip (agrees : p.Agrees early late texts q) : q.Agrees late early texts p :=
  fun input among => Run.agreesFlip (agrees input among)

theorem agreesEnd (ends : p.LeavesEnd) (whole : Text) : p.Agrees early late (· <:+ whole) p := by
  intro input inside
  refine Run.agreesRefl fun found ended m same => ?_
  obtain ⟨used, splits, -⟩ := leftoverSplits ends (same ▸ ended)
  exact (List.suffix_append used m.rest).trans (splits ▸ inside)

theorem choiceAgrees (members : List.Forall₂ (Agrees early late texts) ps qs) :
    (choice ps).Agrees early late texts (choice qs) :=
  choiceRelated Run.agreesComposes members

theorem sequenceAgrees (members : List.Forall₂ (Agrees early late texts) ps qs) :
    (sequence ps).Agrees early late texts (sequence qs) :=
  sequenceRelated Run.agreesComposes members

theorem tracedAgrees (label : String) (agrees : p.Agrees early late texts q) :
    (traced label p).Agrees early late texts (traced label q) := by
  intro input among
  have inside : (do let found ← p input; report input found; pure found : Run _).Agrees early late
      (Stays texts) (do let found ← q input; report input found; pure found) :=
    Run.agreesBind (agrees input among) fun found stays =>
      have reports : (report input found).Agrees early late (fun _ => True) (report input found) :=
        Run.agreesRefl fun _ _ => trivial
      Run.agreesBind reports fun _ _ => Run.agreesPure stays
  rcases inside with stops | stops | ⟨same, holds⟩
  · exact .inl stops
  · exact .inr (.inl stops)
  · refine .inr (.inr ⟨?_, holds⟩)
    unfold traced
    rw [same]

theorem betweenAgrees {γ δ : Type} {left left' : Parser γ} {right right' : Parser δ}
    (first : left.Agrees early late texts left') (middle : p.Agrees early late texts q)
    (last : right.Agrees early late texts right') :
    (between left p right).Agrees early late texts (between left' q right') :=
  betweenRelated Run.agreesComposes first middle last

theorem blockAgrees (suffixes : ∀ c t, texts (c :: t) → texts t) (ofChar : Char → α)
    {start start' terminator terminator' escape escape' : Parser α}
    (first : start.Agrees early late texts start')
    (second : terminator.Agrees early late texts terminator')
    (third : escape.Agrees early late texts escape') :
    (block ofChar start terminator escape).Agrees early late texts
      (block ofChar start' terminator' escape') :=
  blockRelated Run.agreesComposes suffixes ofChar first second third

theorem replicateAgrees (n : Nat) (agrees : p.Agrees early late texts q) :
    List.Forall₂ (Agrees early late texts) (List.replicate n p) (List.replicate n q) :=
  replicateRelated n agrees

end Parser

theorem Wrapper.parserAgrees {early late : Stop → Prop} {texts : Text → Prop} (w : Wrapper)
    {p q : Parser Value} (agrees : w.keeps = true → p.Agrees early late texts q) :
    (w.parser p).Agrees early late texts (w.parser q) :=
  w.parserRelated Run.agreesComposes (fun label _ => Parser.tracedAgrees label) agrees

namespace Rule

variable {good : Leaf → Prop}

mutual

theorem leavesAll (holds : ∀ l, good l) : ∀ rule : Rule, rule.Leaves good
  | .leaf l => holds l
  | .wrap _ body => leavesAll holds body
  | .choice members => leavesOfAll holds members
  | .sequence members => leavesOfAll holds members
  | .choiceOf _ member last => ⟨leavesAll holds member, leavesAll holds last⟩
  | .between left middle right =>
    ⟨leavesAll holds left, leavesAll holds middle, leavesAll holds right⟩
  | .block start terminator escape =>
    ⟨leavesAll holds start, leavesAll holds terminator, leavesAll holds escape⟩
  | .refer _ => trivial

theorem leavesOfAll (holds : ∀ l, good l) : ∀ rules : List Rule, LeavesOfAll good rules
  | [] => trivial
  | rule :: rules => ⟨leavesAll holds rule, leavesOfAll holds rules⟩

end

variable {early late : Stop → Prop} {texts : Text → Prop} {call call' : Reference → Parser Value}

mutual

theorem parserAgrees (stays : ∀ l, good l → l.parser.Agrees early late texts l.parser)
    (suffixes : ∀ c t, texts (c :: t) → texts t) : ∀ rule : Rule, rule.Leaves good →
    (∀ r ∈ rule.references, (call r).Agrees early late texts (call' r)) →
      (rule.parser call).Agrees early late texts (rule.parser call')
  | .leaf l, leaves, _ => stays l leaves
  | .wrap w body, leaves, calls => w.parserAgrees fun keeps =>
    parserAgrees stays suffixes body leaves fun r inside =>
      calls r (by simpa [references, keeps] using inside)
  | .choice members, leaves, calls =>
    Parser.choiceAgrees (parsersAgree stays suffixes members leaves calls)
  | .sequence members, leaves, calls =>
    Parser.sequenceAgrees (parsersAgree stays suffixes members leaves calls)
  | .choiceOf n member last, leaves, calls => by
    have final := parserAgrees stays suffixes last leaves.2 fun r inside =>
      calls r (List.mem_append_right _ inside)
    refine Parser.choiceAgrees (List.rel_append ?_ (.cons final .nil))
    cases n with
    | zero => exact .nil
    | succ n =>
      refine Parser.replicateAgrees (n + 1) (parserAgrees stays suffixes member leaves.1 ?_)
      exact fun r inside => calls r (List.mem_append_left _ (by simpa using inside))
  | .between left middle right, leaves, calls => by
    simp only [references, List.forall_mem_append] at calls
    exact Parser.betweenAgrees (parserAgrees stays suffixes left leaves.1 calls.1.1)
      (parserAgrees stays suffixes middle leaves.2.1 calls.1.2)
      (parserAgrees stays suffixes right leaves.2.2 calls.2)
  | .block start terminator escape, leaves, calls => by
    simp only [references, List.forall_mem_append] at calls
    exact Parser.blockAgrees suffixes _ (parserAgrees stays suffixes start leaves.1 calls.1.1)
      (parserAgrees stays suffixes terminator leaves.2.1 calls.1.2)
      (parserAgrees stays suffixes escape leaves.2.2 calls.2)
  | .refer r, _, calls => calls r List.mem_cons_self

theorem parsersAgree (stays : ∀ l, good l → l.parser.Agrees early late texts l.parser)
    (suffixes : ∀ c t, texts (c :: t) → texts t) : ∀ rules : List Rule, LeavesOfAll good rules →
    (∀ r ∈ referencesOfAll rules, (call r).Agrees early late texts (call' r)) →
      List.Forall₂ (Parser.Agrees early late texts) (parsers call rules) (parsers call' rules)
  | [], _, _ => .nil
  | rule :: rules, leaves, calls => by
    simp only [referencesOfAll, List.forall_mem_append] at calls
    exact .cons (parserAgrees stays suffixes rule leaves.1 calls.1)
      (parsersAgree stays suffixes rules leaves.2 calls.2)

end

theorem parserAgreesAnywhere (rule : Rule)
    (calls : ∀ r ∈ rule.references, (call r).Agrees early late (fun _ => True) (call' r)) :
    (rule.parser call).Agrees early late (fun _ => True) (rule.parser call') :=
  rule.parserAgrees (fun l _ => l.parser.agreesAnywhere) (fun _ _ _ => trivial)
    (rule.leavesAll fun _ => trivial : rule.Leaves fun _ => True) calls

end Rule
end Descent
