import Mathlib.Data.Finset.Prod
import Mathlib.Data.Finset.Card
import Descent.Proofs.Agreement
import Descent.Proofs.Ownership
/-!
The depth to which references may be open at once. More of it changes a run only where the run was
exhausted. From one depth to the next more references become answerable, at more ends of the text,
until none does; then none does at any greater depth. There are only so many cells and ends of the
text, so this comes to pass at the depth bound, and a run that is exhausted there would never end.
-/
namespace Descent

def Run.Exhausted {α : Type} (r : Run α) : Prop := r.ending = .error .exhausted

instance {α : Type} (r : Run α) : Decidable r.Exhausted :=
  match h : r.ending with
  | .ok _ => .isFalse (by simp [Run.Exhausted, h])
  | .error s => decidable_of_iff (s = .exhausted) (by simp [Run.Exhausted, h])

theorem Run.panicEnds {α : Type} (cause : Panic) : ¬ (Run.panic cause : Run α).Exhausted := by
  simp [Exhausted, panic, stop]

theorem Run.answerEnds {α : Type} {r : Run α} {a : α} (ended : r.ending = .ok a) : ¬ r.Exhausted := by
  simp [Exhausted, ended]

/-- The same run, or two that are both exhausted. -/
def Run.Alike {α : Type} (r r' : Run α) : Prop := r = r' ∨ r.Exhausted ∧ r'.Exhausted

theorem Run.exhaustedExcused {α : Type} {good : α → Prop} {r r' : Run α}
    (agrees : r.Agrees (· = .exhausted) (fun _ => False) good r') (ends : ¬ r.Exhausted) : r = r' := by
  rcases agrees with ⟨_, stops, rfl⟩ | ⟨_, _, excused⟩ | ⟨same, -⟩
  · exact absurd stops ends
  · exact excused.elim
  · exact same

namespace Store

variable {σ : Store} {live : List Nat} {whole : Text}

theorem invokeNext (depth : Nat) (r : Reference) :
    (σ.invoke live depth r).Agrees (· = .exhausted) (fun _ => False) (fun _ => True)
      (σ.invoke live (depth + 1) r) := by
  induction depth generalizing r with
  | zero => exact fun _ _ => .inl ⟨_, rfl, rfl⟩
  | succ depth ih =>
    intro input _
    rw [invoke, invoke]
    split
    · rename_i rule _
      exact rule.parserAgreesAnywhere (fun r _ => ih r) input trivial
    · exact Run.agreesRefl fun _ _ _ _ => trivial

theorem parserNext (depth : Nat) (rule : Rule) :
    (rule.parser (σ.invoke live depth)).Agrees (· = .exhausted) (fun _ => False) (fun _ => True)
      (rule.parser (σ.invoke live (depth + 1))) :=
  rule.parserAgreesAnywhere fun r _ => invokeNext depth r

theorem parserDeeper (rule : Rule) {input : Text} {depth deeper : Nat} (more : depth ≤ deeper)
    (ends : ¬ (rule.parser (σ.invoke live depth) input).Exhausted) :
    rule.parser (σ.invoke live deeper) input = rule.parser (σ.invoke live depth) input := by
  induction more with
  | refl => rfl
  | @step deeper _ ih =>
    rw [← ih] at ends ⊢
    exact (Run.exhaustedExcused (parserNext deeper rule input trivial) ends).symm

theorem invokeDeeper {r : Reference} {input : Text} {depth deeper : Nat} (more : depth ≤ deeper)
    (ends : ¬ (σ.invoke live depth r input).Exhausted) :
    σ.invoke live deeper r input = σ.invoke live depth r input :=
  parserDeeper (.refer r) more ends

def Settled (σ : Store) (live : List Nat) (whole : Text) (depth : Nat) : Prop :=
  ∀ r input, input <:+ whole → (σ.invoke live depth r input).Exhausted →
    (σ.invoke live (depth + 1) r input).Exhausted

theorem settledParser (leaves : σ.Leaves Leaf.LeavesEnd) {depth : Nat}
    (settled : σ.Settled live whole depth) {rule : Rule} (own : rule.Leaves Leaf.LeavesEnd)
    {input : Text} (inside : input <:+ whole)
    (short : (rule.parser (σ.invoke live depth) input).Exhausted) :
    (rule.parser (σ.invoke live (depth + 1)) input).Exhausted := by
  -- The depth falls short at a call only if it falls short with one more.
  have calls : ∀ r ∈ rule.references, (σ.invoke live depth r).Agrees (fun _ => False)
      (· = .exhausted) (· <:+ whole) (σ.invoke live (depth + 1) r) := by
    intro r _ input inside
    by_cases short : (σ.invoke live (depth + 1) r input).Exhausted
    · exact .inr (.inl ⟨_, short, rfl⟩)
    · have ends : ¬ (σ.invoke live depth r input).Exhausted := fun exhausted =>
        short (settled r input inside exhausted)
      rw [invokeDeeper (Nat.le_succ depth) ends]
      exact Parser.agreesEnd (invokeEnd leaves live depth r) whole input inside
  have agrees := rule.parserAgrees (fun l own => Parser.agreesEnd (Leaf.parserEnd own) whole)
    (fun c t inside => (List.suffix_cons c t).trans inside) own calls input inside
  rcases agrees with ⟨_, _, excused⟩ | ⟨_, stops, rfl⟩ | ⟨same, -⟩
  · exact excused.elim
  · exact stops
  · exact same ▸ short

theorem settledNext (leaves : σ.Leaves Leaf.LeavesEnd) {depth : Nat}
    (settled : σ.Settled live whole depth) : σ.Settled live whole (depth + 1) := by
  intro r input inside exhausted
  rw [invoke] at exhausted ⊢
  split
  · rename_i rule found
    simp only [found] at exhausted
    exact settledParser leaves settled (leaves rule (memOfDefinition (resolveDefinition found)))
      inside exhausted
  · rename_i cause failed
    simp only [failed] at exhausted
    exact absurd exhausted (Run.panicEnds cause)

theorem settledFrom (leaves : σ.Leaves Leaf.LeavesEnd) {depth deeper : Nat}
    (settled : σ.Settled live whole depth) (more : depth ≤ deeper) :
    σ.Settled live whole deeper := by
  induction more with
  | refl => exact settled
  | step _ ih => exact settledNext leaves ih

def answered (σ : Store) (live : List Nat) (whole : Text) (depth : Nat) : Finset (Nat × Nat) :=
  (Finset.range σ.cells.length ×ˢ Finset.range (whole.length + 1)).filter fun e =>
    ¬ (σ.invoke live depth (.owner e.1) (whole.drop e.2)).Exhausted

theorem answeredGrows (depth : Nat) :
    σ.answered live whole depth ⊆ σ.answered live whole (depth + 1) := by
  intro e inside
  obtain ⟨among, answers⟩ := Finset.mem_filter.mp inside
  refine Finset.mem_filter.mpr ⟨among, ?_⟩
  rwa [invokeDeeper (Nat.le_succ depth) answers]

theorem answeredBound (depth : Nat) :
    (σ.answered live whole depth).card ≤ σ.cells.length * (whole.length + 1) := by
  refine (Finset.card_filter_le _ _).trans ?_
  rw [Finset.card_product, Finset.card_range, Finset.card_range]

theorem invokeOwner {r : Reference} {rule : Rule} (found : σ.resolve live r = .ok rule)
    (depth : Nat) : σ.invoke live (depth + 1) r = σ.invoke live (depth + 1) (.owner r.cell) := by
  have owner : σ.resolve live (.owner r.cell) = .ok rule := by
    have known := resolveDefinition found
    simp only [resolve]
    rw [show (Reference.owner r.cell).cell = r.cell from rfl, known]
    rfl
  funext input
  rw [invoke, invoke, found, owner]

theorem answeredMore {depth : Nat} (unsettled : ¬ σ.Settled live whole (depth + 1)) :
    (σ.answered live whole (depth + 1)).card < (σ.answered live whole (depth + 2)).card := by
  simp only [Settled, not_forall] at unsettled
  obtain ⟨r, input, inside, short, enough⟩ := unsettled
  refine Finset.card_lt_card (Finset.ssubset_iff_subset_ne.mpr ⟨answeredGrows _, fun same => ?_⟩)
  cases found : σ.resolve live r with
  | error cause =>
    rw [invoke, found] at short
    exact absurd short (Run.panicEnds cause)
  | ok rule =>
    rw [invokeOwner found] at short enough
    have made := σ.definedMade (resolveDefinition found)
    have place := List.suffix_iff_eq_drop.mp inside
    have here : (r.cell, whole.length - input.length) ∈ σ.answered live whole (depth + 2) := by
      refine Finset.mem_filter.mpr ⟨?_, by rwa [← place]⟩
      simp only [Finset.mem_product, Finset.mem_range]
      omega
    rw [← same] at here
    exact (Finset.mem_filter.mp here).2 (by rwa [← place])

theorem settledOrMore (leaves : σ.Leaves Leaf.LeavesEnd) (depth : Nat) :
    σ.Settled live whole (depth + 1) ∨ depth < (σ.answered live whole (depth + 2)).card := by
  induction depth with
  | zero =>
    refine or_iff_not_imp_left.mpr fun unsettled => ?_
    have more := answeredMore unsettled
    omega
  | succ depth ih =>
    refine or_iff_not_imp_left.mpr fun unsettled => ?_
    have more := answeredMore unsettled
    rcases ih with settled | many
    · exact absurd (settledNext leaves settled) unsettled
    · exact Nat.lt_of_le_of_lt many more

theorem settledAtBound (leaves : σ.Leaves Leaf.LeavesEnd) :
    σ.Settled live whole (σ.depthBound whole) := by
  rcases settledOrMore leaves (σ.cells.length * (whole.length + 1)) with settled | many
  · exact settled
  · exact absurd many (Nat.not_lt_of_le (answeredBound _))

theorem depthSuffices (leaves : σ.Leaves Leaf.LeavesEnd) {rule : Rule}
    (own : rule.Leaves Leaf.LeavesEnd) {input : Text} {depth : Nat}
    (ends : ¬ (rule.parser (σ.invoke live depth) input).Exhausted) :
    rule.parser (σ.invoke live (σ.depthBound input)) input =
      rule.parser (σ.invoke live depth) input := by
  rcases Nat.le_total depth (σ.depthBound input) with less | more
  · exact parserDeeper rule less ends
  · induction more with
    | refl => rfl
    | @step depth deep ih =>
      have settled : σ.Settled live input depth := settledFrom leaves (settledAtBound leaves) deep
      have before : ¬ (rule.parser (σ.invoke live depth) input).Exhausted := fun short =>
        ends (settledParser leaves settled own (List.suffix_refl input) short)
      rw [ih before, parserDeeper rule (Nat.le_succ depth) before]

end Store
end Descent
