import Descent.Parser.Combinator
/-!
What a parser reads, as a language: a relation between the words it uses up and the values it
produces for them. A parser reads a language up to a length of the text when every match there uses
up a word of the language, and every stop is of a permitted kind. Each way to build a parser has
one rule that gives its language from those of its parts.
-/
namespace Descent

namespace Run

variable {α β : Type} {r : Run α} {good : α → Prop} {stopped : Stop → Prop}

def Ends (r : Run α) (good : α → Prop) (stopped : Stop → Prop) : Prop :=
  match r.ending with
  | .ok a => good a
  | .error s => stopped s

theorem endsPure {a : α} (holds : good a) : (pure a : Run α).Ends good stopped := holds

theorem endsBind {better : β → Prop} {next : α → Run β} (first : r.Ends good stopped)
    (then_ : ∀ a, good a → (next a).Ends better stopped) : (r >>= next).Ends better stopped := by
  obtain ⟨journal, ending⟩ := r
  cases ending with
  | error s => exact first
  | ok a => exact then_ a first

theorem endsMono {better : α → Prop} (ends : r.Ends good stopped) (weaker : ∀ a, good a → better a) :
    r.Ends better stopped := by
  obtain ⟨journal, ending⟩ := r
  cases ending with
  | error s => exact ends
  | ok a => exact weaker a ends

theorem endsResult {a : α} (ends : r.Ends good stopped) (result : r.ending = .ok a) : good a := by
  simpa only [Ends, result] using ends

theorem endsStopped {s : Stop} (ends : r.Ends good stopped) (result : r.ending = .error s) :
    stopped s := by
  simpa only [Ends, result] using ends

theorem endsTotal (ends : r.Ends good fun _ => False) : ∃ a, r.ending = .ok a ∧ good a := by
  obtain ⟨journal, ending⟩ := r
  cases ending with
  | error s => exact ends.elim
  | ok a => exact ⟨a, rfl, ends⟩

end Run

abbrev Language (α : Type) := Text → List α → Prop

namespace Language

variable {α β : Type}

def every : Language α := fun _ _ => True

def nothing : Language α := fun w values => w = [] ∧ values = []

def append (L K : Language α) : Language α := fun w values =>
  ∃ w₁ w₂ v₁ v₂, w = w₁ ++ w₂ ∧ values = v₁ ++ v₂ ∧ L w₁ v₁ ∧ K w₂ v₂

inductive Star (L : Language α) : Language α
  | done : Star L [] []
  | more {w u values others} (first : L w values) (rest : Star L u others) :
      Star L (w ++ u) (values ++ others)

def through (f : List α → Option (List β)) (L : Language α) : Language β := fun w values =>
  ∃ originals, L w originals ∧ f originals = some values

def Takes (k : Nat) (L : Language α) : Prop :=
  ∀ w values, L w values → k ≤ w.length

theorem takesNone (L : Language α) : Takes 0 L := fun _ _ _ => Nat.zero_le _

end Language

namespace Parser
open Language (every nothing append Star through Takes)

variable {α β : Type} {stopped : Stop → Prop} {n : Nat} {p : Parser α} {ps : List (Parser α)}
  {L K : Language α}

def Reads (stopped : Stop → Prop) (n : Nat) (p : Parser α) (L : Language α) : Prop :=
  ∀ input : Text, input.length ≤ n → (p input).Ends
    (fun found => ∀ m, found = some m → ∃ w, input = w ++ m.rest ∧ L w m.produced) stopped

theorem readsMono (reads : p.Reads stopped n L) (wider : ∀ w values, L w values → K w values) :
    p.Reads stopped n K := fun input short =>
  Run.endsMono (reads input short) fun _ holds m found =>
    let ⟨w, splits, word⟩ := holds m found
    ⟨w, splits, wider w m.produced word⟩

theorem readsAnyChar : anyChar.Reads stopped n fun w values => ∃ c, w = [c] ∧ values = [c] := by
  intro input _
  cases input with
  | nil => exact Run.endsPure (by simp)
  | cons c rest =>
    refine Run.endsPure fun m found => ?_
    cases Option.some.inj found
    exact ⟨[c], rfl, c, rfl, rfl⟩

theorem readsLiteral (expected : String) : (literal expected).Reads stopped n
    fun w values => expected ≠ "" ∧ w = expected.toList ∧ values = [expected] := by
  intro input _
  simp only [literal]
  split
  · exact Run.endsPure (by simp)
  · rename_i full
    refine Run.endsPure fun m found => ?_
    obtain ⟨rest, left, same⟩ := Option.map_eq_some_iff.mp found
    subst same
    exact ⟨expected.toList, Text.afterSplits left, by simpa using full, rfl, rfl⟩

theorem readsFail : (fail : Parser α).Reads stopped n L :=
  fun _ _ => Run.endsPure (by simp)

theorem readsSucceed : (succeed : Parser α).Reads stopped n nothing := by
  intro input _
  refine Run.endsPure fun m found => ?_
  cases Option.some.inj found
  exact ⟨[], rfl, rfl, rfl⟩

theorem readsAtEnd : (atEnd : Parser α).Reads stopped n nothing := by
  intro input _
  cases input with
  | cons c rest => exact Run.endsPure (by simp)
  | nil =>
    refine Run.endsPure fun m found => ?_
    cases Option.some.inj found
    exact ⟨[], rfl, rfl, rfl⟩

theorem readsTake (k : Nat) : (take k).Reads stopped n
    fun w values => w.length = k ∧ values = [String.ofList w] := by
  intro input _
  simp only [take]
  split
  · rename_i enough
    refine Run.endsPure fun m found => ?_
    cases Option.some.inj found
    exact ⟨input.take k, (List.take_append_drop k input).symm,
      List.length_take_of_le enough, rfl⟩
  · exact Run.endsPure (by simp)

theorem readsChoice (members : ∀ p ∈ ps, p.Reads stopped n L) : (choice ps).Reads stopped n L := by
  intro input short
  induction ps with
  | nil => exact Run.endsPure (by simp)
  | cons p ps ih =>
    refine Run.endsBind (members p List.mem_cons_self input short) fun found holds => ?_
    cases found with
    | none => exact ih fun q inside => members q (List.mem_cons_of_mem _ inside)
    | some m => exact Run.endsPure holds

theorem readsSequenceNil : (sequence ([] : List (Parser α))).Reads stopped n nothing := by
  intro input _
  refine Run.endsPure fun m found => ?_
  cases Option.some.inj found
  exact ⟨[], rfl, rfl, rfl⟩

theorem readsSequence {k : Nat} (first : p.Reads stopped n L) (long : Takes k L)
    (others : k ≤ n → (sequence ps).Reads stopped (n - k) K) :
    (sequence (p :: ps)).Reads stopped n (append L K) := by
  intro input short
  refine Run.endsBind (first input short) fun found holds => ?_
  cases found with
  | none => exact Run.endsPure (by simp)
  | some m =>
    obtain ⟨w, splits, word⟩ := holds m rfl
    have used := long w m.produced word
    have lengths := congrArg List.length splits
    rw [List.length_append] at lengths
    -- What the first parser took, the others do not meet any more.
    refine Run.endsBind (others (by omega) m.rest (by omega)) fun next holds => ?_
    cases next with
    | none => exact Run.endsPure (by simp)
    | some o =>
      obtain ⟨u, after, tail⟩ := holds o rfl
      refine Run.endsPure fun joined same => ?_
      cases Option.some.inj same
      exact ⟨w ++ u, by rw [List.append_assoc, ← after, ← splits],
        w, u, m.produced, o.produced, rfl, rfl, word, tail⟩

theorem readsSequenceClosed (empty : L [] []) (closed : ∀ w values, append L L w values → L w values)
    (members : ∀ p ∈ ps, p.Reads stopped n L) : (sequence ps).Reads stopped n L := by
  induction ps with
  | nil =>
    refine readsMono readsSequenceNil ?_
    rintro _ _ ⟨rfl, rfl⟩
    exact empty
  | cons p ps ih =>
    have others := ih fun q inside => members q (List.mem_cons_of_mem _ inside)
    exact readsMono (readsSequence (members p List.mem_cons_self) (Language.takesNone L)
      fun _ => others) closed

theorem repeatedReads (reads : p.Reads stopped n L)
    (progress : stopped (.panic .stalledRepetition) ∨ Takes 1 L) (input : Text)
    (short : input.length ≤ n) : (repeated p input).Ends
      (fun m => ∃ w, input = w ++ m.rest ∧ Star L w m.produced) stopped := by
  induction size : input.byteLength using Nat.strongRecOn generalizing input with
  | ind _ ih => ?_
  subst size
  rw [repeated]
  refine Run.endsBind (reads input short) fun found holds => ?_
  cases found with
  | none => exact Run.endsPure ⟨[], rfl, .done⟩
  | some m =>
    obtain ⟨w, splits, word⟩ := holds m rfl
    dsimp only
    split
    · rename_i shrinks
      have shorter : m.rest.length ≤ n :=
        Nat.le_trans (List.IsSuffix.length_le ⟨w, splits.symm⟩) short
      refine Run.endsBind (ih _ shrinks m.rest shorter rfl) fun o later => ?_
      obtain ⟨u, after, tail⟩ := later
      exact Run.endsPure ⟨w ++ u, by rw [List.append_assoc, ← after, ← splits], .more word tail⟩
    · rename_i stalls
      cases progress with
      | inl permitted => exact permitted
      | inr long =>
        have used := long w m.produced word
        rw [splits] at stalls
        exact absurd (Text.byteLengthBehind (List.length_pos_iff.mp used) m.rest) stalls

theorem readsMany (reads : p.Reads stopped n L)
    (progress : stopped (.panic .stalledRepetition) ∨ Takes 1 L) :
    (many p).Reads stopped n (Star L) := fun input short =>
  Run.endsBind (repeatedReads reads progress input short) fun _ holds =>
    Run.endsPure fun _ found => Option.some.inj found ▸ holds

theorem readsMany1 (reads : p.Reads stopped n L)
    (progress : stopped (.panic .stalledRepetition) ∨ Takes 1 L) :
    (many1 p).Reads stopped n (append L (Star L)) :=
  readsMono (readsSequence reads (Language.takesNone L) fun _ =>
      readsSequence (readsMany reads progress) (Language.takesNone _) fun _ => readsSequenceNil) (by
    rintro _ _ ⟨w, _, values, _, rfl, rfl, first, u, _, others, _, rfl, rfl, rest, rfl, rfl⟩
    exact ⟨w, u, values, others, by simp, by simp, first, rest⟩)

theorem readsRefine {f : Match α → Option (Match β)} {K : Language β} (reads : p.Reads stopped n L)
    (kept : ∀ m o, f m = some o → o.rest = m.rest ∧
      ∀ w, L w m.produced → K w o.produced) : (refine f p).Reads stopped n K := by
  intro input short
  refine Run.endsBind (reads input short) fun found holds => Run.endsPure fun o same => ?_
  obtain ⟨m, rfl, made⟩ := Option.bind_eq_some_iff.mp same
  obtain ⟨w, splits, word⟩ := holds m rfl
  obtain ⟨rest, produced⟩ := kept m o made
  exact ⟨w, rest ▸ splits, produced w word⟩

theorem refineAgrees {f g : Match α → Option (Match β)} (reads : p.Reads stopped n L)
    (same : ∀ m w, L w m.produced → f m = g m) {input : Text} (short : input.length ≤ n) :
    refine f p input = refine g p input := by
  have holds := reads input short
  unfold refine
  generalize p input = r at holds ⊢
  obtain ⟨journal, ending⟩ := r
  cases ending with
  | error s => rfl
  | ok found =>
    cases found with
    | none => rfl
    | some m =>
      obtain ⟨w, -, word⟩ := holds m rfl
      rw [Run.bindOk, Run.bindOk, Option.bind_some, Option.bind_some, same m w word]

theorem readsMapAll? {f : List α → Option (List β)} (reads : p.Reads stopped n L) :
    (mapAll? f p).Reads stopped n (through f L) := by
  refine readsRefine reads fun m o made => ?_
  obtain ⟨values, accepted, rfl⟩ := Option.map_eq_some_iff.mp made
  exact ⟨rfl, fun w word => ⟨m.produced, word, accepted⟩⟩

theorem readsMapAll {f : List α → List β} (reads : p.Reads stopped n L) :
    (mapAll f p).Reads stopped n (through (some ∘ f) L) := by
  refine readsRefine reads fun m o made => ?_
  cases Option.some.inj made
  exact ⟨rfl, fun w word => ⟨m.produced, word, rfl⟩⟩

theorem readsMap {f : α → β} (reads : p.Reads stopped n L) :
    (map f p).Reads stopped n (through (some ∘ List.map f) L) :=
  readsMapAll (f := List.map f) reads

theorem readsSkip (reads : p.Reads stopped n L) :
    (skip p : Parser β).Reads stopped n fun w values => values = [] ∧ ∃ originals, L w originals := by
  refine readsRefine reads fun m o made => ?_
  cases Option.some.inj made
  exact ⟨rfl, fun w word => ⟨rfl, m.produced, word⟩⟩

theorem readsBetween {γ δ : Type} {left : Parser γ} {right : Parser δ} {A : Language γ}
    {C : Language δ} {k : Nat} (first : left.Reads stopped n A) (long : Takes k A)
    (middle : k ≤ n → p.Reads stopped (n - k) L) (last : right.Reads stopped (n - k) C) :
    (between left p right).Reads stopped n fun w values => ∃ a u c, w = a ++ (u ++ c) ∧
      (∃ opened, A a opened) ∧ L u values ∧ ∃ closed, C c closed := by
  have skipped : Takes k fun w (values : List α) => values = [] ∧ ∃ opened, A w opened :=
    fun w _ word => long w _ word.2.choose_spec
  refine readsMono (readsSequence (readsSkip first) skipped fun room => readsSequence (middle room)
    (Language.takesNone L) fun _ => readsSequence (readsSkip last) (Language.takesNone _) fun _ =>
      readsSequenceNil) ?_
  rintro _ _ ⟨a, _, _, _, rfl, rfl, ⟨rfl, opened⟩, u, _, values, _, rfl, rfl, word, c, _, _, _, rfl,
    rfl, ⟨rfl, closed⟩, rfl, rfl⟩
  exact ⟨a, u, c, by simp, opened, by simpa using word, closed⟩

theorem readsWhole (reads : p.Reads stopped n L) : (whole p).Reads stopped n L := by
  refine readsRefine reads fun m o made => ?_
  split at made
  · cases Option.some.inj made
    exact ⟨rfl, fun _ => id⟩
  · contradiction

theorem readsNotAhead (reads : p.Reads stopped n L) :
    (notAhead p : Parser β).Reads stopped n nothing := by
  intro input short
  refine Run.endsBind (reads input short) fun found _ => ?_
  cases found with
  | some m => exact Run.endsPure (by simp)
  | none =>
    refine Run.endsPure fun m found => ?_
    cases Option.some.inj found
    exact ⟨[], rfl, rfl, rfl⟩

theorem readsTraced (label : String) (reads : p.Reads stopped n L) :
    (traced label p).Reads stopped n L := by
  intro input short
  have inside : (do let found ← p input; report input found; pure found : Run _).Ends
      (fun found => ∀ m, found = some m → ∃ w, input = w ++ m.rest ∧ L w m.produced) stopped := by
    refine Run.endsBind (reads input short) fun found holds => ?_
    cases found with
    | none => exact holds
    | some m =>
      obtain ⟨w, splits, -⟩ := holds m rfl
      -- The report does not stop, because what is left is an end of the text.
      have counted : report input (some m) =
          Run.record (.matched w.byteLength m.produced.length) := by
        rw [report, splits, m.consumedSplits]
      rw [counted]
      exact holds
  exact inside

end Parser
end Descent
