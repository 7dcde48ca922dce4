import Descent.Proofs.Meaning
import Descent.Proofs.Progress
import Descent.Parens
import Descent.Json.Grammar
/-!
Grammars that always answer. A repetition needs a body that is never empty, and a definition may come
back to its own names only behind something that is never empty. So whatever a grammar goes through
without moving on is a part of what it was in, or a name that was known before, and it ends; where it
moves on there is less text. How deep the references go follows, since no run goes deeper than the depth
bound unless it never ends.
-/
namespace Descent

def Leaf.mayBeEmpty : Leaf → Bool
  | .succeed => true
  | .atEnd => true
  | .take n => n == 0
  | .custom _ => true
  | _ => false

def Wrapper.mayBeEmpty : Wrapper → Bool → Bool
  | .many, _ => true
  | .notAhead, _ => true
  | .times n, body => n == 0 || body
  | _, body => body

def Wrapper.repeats : Wrapper → Bool
  | .many => true
  | .many1 => true
  | _ => false

namespace Grammar

mutual

def mayBeEmpty : Grammar → Bool
  | .leaf l => l.mayBeEmpty
  | .wrap w body => w.mayBeEmpty (mayBeEmpty body)
  | .choice members => oneMayBeEmpty members
  | .sequence members => allMayBeEmpty members
  | .choiceOf n member last => (n != 0 && mayBeEmpty member) || mayBeEmpty last
  | .between left middle right => mayBeEmpty left && (mayBeEmpty middle && mayBeEmpty right)
  | .block start terminator _ => mayBeEmpty start && mayBeEmpty terminator
  | .ref _ => true
  | .recursive _ body => mayBeEmpty body
  | .together _ body => mayBeEmpty body

def oneMayBeEmpty : List Grammar → Bool
  | [] => false
  | g :: gs => mayBeEmpty g || oneMayBeEmpty gs

def allMayBeEmpty : List Grammar → Bool
  | [] => true
  | g :: gs => mayBeEmpty g && allMayBeEmpty gs

end

def stillBarred (g : Grammar) (barred : List String) : List String :=
  if g.mayBeEmpty then barred else []

/-- The body of a pair of literals that has such pairs inside. It is known to answer, although a name
is what escapes in it. -/
def nestsItself (name : String) : Grammar → Bool
  | .block (.leaf (.literal _)) (.leaf (.literal _)) (.ref inner) => inner == name
  | _ => false

mutual

/-- No repetition has a body, and no block an escape, that may be empty, and no name is used where it
is barred. The names of definitions are barred from the start of each of these definitions up to where
something matched that is never empty. -/
def wellFormed (barred : List String) : Grammar → Bool
  | .leaf _ => true
  | .wrap w body => wellFormed barred body && !(w.repeats && body.mayBeEmpty)
  | .choice members => wellFormedAll barred members
  | .sequence members => wellFormedInTurn barred members
  | .choiceOf _ member last => wellFormed barred member && wellFormed barred last
  | .between left middle right => wellFormed barred left &&
    (wellFormed (left.stillBarred barred) middle &&
      wellFormed (middle.stillBarred (left.stillBarred barred)) right)
  | .block start terminator escape => wellFormed barred start &&
    (wellFormed (start.stillBarred barred) terminator &&
      (wellFormed (start.stillBarred barred) escape && !escape.mayBeEmpty))
  | .ref name => !barred.contains name
  | .recursive name body => nestsItself name body || wellFormed (name :: barred) body
  | .together definitions body =>
    wellFormedDefinitions (definitions.map Prod.fst ++ barred) definitions &&
      wellFormed (barred.filter fun name => !(definitions.map Prod.fst).contains name) body

def wellFormedAll (barred : List String) : List Grammar → Bool
  | [] => true
  | g :: gs => wellFormed barred g && wellFormedAll barred gs

def wellFormedInTurn (barred : List String) : List Grammar → Bool
  | [] => true
  | g :: gs => wellFormed barred g && wellFormedInTurn (g.stillBarred barred) gs

def wellFormedDefinitions (barred : List String) : List (String × Grammar) → Bool
  | [] => true
  | (_, g) :: gs => wellFormed barred g && wellFormedDefinitions barred gs

end

end Grammar

theorem Json.valueWellFormed (barred : List String) :
    Json.value.wellFormed barred = true ∧ Json.value.mayBeEmpty = false :=
  ⟨rfl, rfl⟩

theorem Parens.nestedWellFormed (opening closing : String) (barred : List String) :
    (Parens.nested opening closing).wellFormed barred = true ∧
      (Parens.nested opening closing).mayBeEmpty = false :=
  ⟨rfl, rfl⟩

def Eventually (holds : Nat → Prop) : Prop := ∃ enough, ∀ depth, enough ≤ depth → holds depth

namespace Eventually

variable {p q : Nat → Prop}

theorem always (holds : ∀ depth, p depth) : Eventually p := ⟨0, fun depth _ => holds depth⟩

theorem mono (holds : Eventually p) (weaker : ∀ depth, p depth → q depth) : Eventually q := by
  obtain ⟨enough, holds⟩ := holds
  exact ⟨enough, fun depth deep => weaker depth (holds depth deep)⟩

theorem both (first : Eventually p) (second : Eventually q) :
    Eventually fun depth => p depth ∧ q depth := by
  obtain ⟨enough, first⟩ := first
  obtain ⟨more, second⟩ := second
  exact ⟨max enough more, fun depth deep => ⟨first depth (by omega), second depth (by omega)⟩⟩

theorem under {condition : Prop} (holds : condition → Eventually p) :
    Eventually fun depth => condition → p depth := by
  by_cases given : condition
  · exact (holds given).mono fun _ holds _ => holds
  · exact always fun _ given' => absurd given' given

theorem next (holds : Eventually fun depth => p (depth + 1)) : Eventually p := by
  obtain ⟨enough, holds⟩ := holds
  refine ⟨enough + 1, fun depth deep => ?_⟩
  obtain ⟨less, rfl⟩ := Nat.exists_eq_add_of_le' (Nat.le_trans (Nat.le_add_left 1 enough) deep)
  exact holds less (Nat.le_of_add_le_add_right deep)

end Eventually

def leastOf (mayBeEmpty : Bool) : Nat := if mayBeEmpty then 0 else 1

theorem leastOr (a b : Bool) : leastOf (a || b) ≤ leastOf a ∧ leastOf (a || b) ≤ leastOf b := by
  cases a <;> cases b <;> decide

theorem leastAnd (a b : Bool) : leastOf (a && b) ≤ leastOf a + leastOf b := by
  cases a <;> cases b <;> decide

variable {n : Nat}

theorem Leaf.parserAdvances {l : Leaf} (ends : l.LeavesEnd) :
    l.parser.Advances n (leastOf l.mayBeEmpty) := by
  cases l with
  | anyChar => exact Parser.mapAdvances Parser.anyCharAdvances
  | literal expected => exact Parser.mapAdvances (Parser.literalAdvances expected)
  | fail => exact Parser.failAdvances
  | succeed => exact Parser.succeedAdvances
  | atEnd => exact Parser.atEndAdvances
  | take k =>
    refine Parser.mapAdvances (Parser.advancesLess (Parser.takeAdvances k) (Nat.le_refl n) ?_)
    cases k <;> simp [leastOf, mayBeEmpty]
  | premade p => exact p.parserAdvances
  | custom look =>
    intro input _
    refine Run.endsPure fun m found => ?_
    obtain ⟨w, splits⟩ := ends input m found
    exact ⟨w, splits.symm, Nat.zero_le _⟩

theorem Wrapper.parserAdvances (w : Wrapper) {p : Parser Value} {empty : Bool}
    (progress : (w.repeats && empty) = false) (advances : p.Advances n (leastOf empty)) :
    (w.parser p).Advances n (leastOf (w.mayBeEmpty empty)) := by
  cases w with
  | many =>
    cases (progress : empty = false)
    exact Parser.manyAdvances advances
  | many1 =>
    cases (progress : empty = false)
    exact Parser.many1Advances advances
  | map f => exact Parser.mapAdvances advances
  | mapAll f => exact Parser.mapAllAdvances advances
  | mapAll? f => exact Parser.mapAllAdvances? advances
  | fold f seed => exact Parser.mapAllAdvances advances
  | fold? f seed => exact Parser.mapAllAdvances? advances
  | notAhead => exact Parser.notAheadAdvances advances
  | skip => exact Parser.skipAdvances advances
  | whole => exact Parser.wholeAdvances advances
  | traced label => exact Parser.tracedAdvances label advances
  | times k =>
    cases k with
    | zero => exact Parser.sequenceNilAdvances
    | succ k =>
      exact Parser.sequenceAdvancesAll fun q inside =>
        List.eq_of_mem_replicate (n := k + 1) inside ▸ advances

namespace Environment

/-- What the names stand for answers on texts shorter than `n`, and what is not barred answers on texts
of `n` scalars too. -/
def Answers (n : Nat) (barred : List String) (env : Environment) : Prop :=
  ∀ name c, Table.find? name env = some c →
    (∀ m < n, Eventually fun depth => (c.run depth).Advances m 0) ∧
    (name ∉ barred → Eventually fun depth => (c.run depth).Advances n 0)

variable {barred : List String} {env : Environment}

theorem answersShorter {m : Nat} (shorter : m < n) (answers : Answers n barred env)
    (others : List String) : Answers m others env := fun name c found =>
  ⟨fun k less => (answers name c found).1 k (Nat.lt_trans less shorter),
    fun _ => (answers name c found).1 m shorter⟩

theorem answersAfter (g : Grammar) (answers : Answers n barred env)
    (room : leastOf g.mayBeEmpty ≤ n) :
    Answers (n - leastOf g.mayBeEmpty) (g.stillBarred barred) env := by
  unfold Grammar.stillBarred leastOf at *
  cases empty : g.mayBeEmpty with
  | true => exact answers
  | false =>
    simp only [empty, Bool.false_eq_true, if_false] at room ⊢
    exact answersShorter (by omega) answers []

theorem definitionsAnswer {definitions : List (String × Grammar)}
    (inner : ∀ d ∈ definitions, ∀ m env', Answers m (definitions.map Prod.fst ++ barred) env' →
      Eventually fun depth =>
        (d.2.meaning (Closure.run depth) env').Advances m (leastOf d.2.mayBeEmpty))
    (answers : Answers n barred env) : ∀ d ∈ definitions, Eventually fun depth =>
      (Closure.run depth (.mk definitions d.2 env)).Advances n (leastOf d.2.mayBeEmpty) := by
  -- Inside the definitions their names are met on shorter texts only.
  induction n using Nat.strongRecOn with
  | ind n ih =>
    intro d inside
    refine Eventually.next (inner d inside n _ fun name c found => ?_)
    rcases definingFinds definitions env name with ⟨other, among, rfl, known⟩ | ⟨-, known⟩ <;>
      rw [known] at found
    · cases found
      refine ⟨fun m less => ?_, fun allowed => ?_⟩
      · exact (ih m less (answersShorter less answers barred) other among).mono fun _ advances =>
          Parser.advancesAny advances
      · exact absurd (List.mem_append_left _ (List.mem_map_of_mem among)) allowed
    · refine ⟨(answers name c found).1, fun allowed => (answers name c found).2 fun outside => ?_⟩
      exact allowed (List.mem_append_right _ outside)

theorem answersDefining {definitions : List (String × Grammar)} (answers : Answers n barred env)
    (defined : ∀ m ≤ n, ∀ d ∈ definitions, Eventually fun depth =>
      (Closure.run depth (.mk definitions d.2 env)).Advances m 0) :
    Answers n (barred.filter fun name => !(definitions.map Prod.fst).contains name)
      (defining definitions env) := by
  intro name c found
  rcases definingFinds definitions env name with ⟨d, inside, rfl, known⟩ | ⟨apart, known⟩ <;>
    rw [known] at found
  · cases found
    exact ⟨fun m less => defined m (Nat.le_of_lt less) d inside,
      fun _ => defined n (Nat.le_refl n) d inside⟩
  · refine ⟨(answers name c found).1, fun allowed => (answers name c found).2 fun outside => ?_⟩
    exact allowed (List.mem_filter.mpr ⟨outside, by simpa using apart⟩)

end Environment

namespace Grammar
open Environment (Answers answersAfter)

theorem nestedAnswers {name : String} {body : Grammar} (nests : body.nestsItself name = true)
    (env : Environment) (n : Nat) : Eventually fun depth =>
      (Closure.run depth (.mk [(name, body)] body env)).Advances n 1 := by
  unfold nestsItself at nests
  split at nests
  · rename_i opening closing inner
    have same := eq_of_beq nests
    subst same
    induction n using Nat.strongRecOn with
    | ind n ih =>
      refine Eventually.next ((Eventually.under fun room : 1 ≤ n => ih (n - 1) (by omega)).mono ?_)
      intro depth shorter
      have reads : ∀ m expected, (Leaf.literal expected).parser.Advances m 1 := fun m expected =>
        Parser.mapAdvances (Parser.literalAdvances expected)
      have pair := Parser.blockAdvances .char (reads n opening) (fun _ => reads (n - 1) closing) shorter
      rw [Closure.run]
      simp only [meaning, Environment.defining, List.map_cons, List.map_nil, List.reverse_cons,
        List.reverse_nil, List.nil_append, List.cons_append, Table.find?, if_true, Option.elim_some]
      exact Parser.advancesLess pair (Nat.le_refl n) (Nat.le_add_right 1 1)
  · contradiction

variable {barred : List String} {env : Environment}

mutual

theorem meaningAdvances : ∀ (g : Grammar) {n : Nat} {barred : List String} {env : Environment},
    g.wellFormed barred = true → g.Leaves Leaf.LeavesEnd → Answers n barred env →
      Eventually fun depth => (g.meaning (Closure.run depth) env).Advances n (leastOf g.mayBeEmpty)
  | .leaf _, _, _, _, _, ends, _ => .always fun _ => Leaf.parserAdvances ends
  | .wrap w body, _, _, _, well, ends, answers => by
    simp only [wellFormed, Bool.and_eq_true, Bool.not_eq_true'] at well
    exact (meaningAdvances body well.1 ends answers).mono fun _ advances =>
      w.parserAdvances well.2 advances
  | .choice members, _, _, _, well, ends, answers =>
    (choiceMembersAdvance members well ends answers).mono fun _ members => Parser.choiceAdvances members
  | .sequence members, _, _, _, well, ends, answers => sequenceMembersAdvance members well ends answers
  | .choiceOf k member last, _, _, _, well, ends, answers => by
    simp only [wellFormed, Bool.and_eq_true] at well
    refine ((meaningAdvances member well.1 ends.1 answers).both
      (meaningAdvances last well.2 ends.2 answers)).mono fun depth advances => ?_
    refine Parser.choiceAdvances fun p inside => ?_
    have least := leastOr (k != 0 && member.mayBeEmpty) last.mayBeEmpty
    rcases List.mem_append.mp inside with copy | final
    · obtain ⟨some, rfl⟩ := List.mem_replicate.mp copy
      rw [bne_iff_ne.mpr some, Bool.true_and] at least
      rw [mayBeEmpty, bne_iff_ne.mpr some, Bool.true_and]
      exact Parser.advancesLess advances.1 (Nat.le_refl _) least.1
    · rw [List.mem_singleton.mp final]
      exact Parser.advancesLess advances.2 (Nat.le_refl _) least.2
  | .between left middle right, n, barred, env, well, ends, answers => by
    simp only [wellFormed, Bool.and_eq_true] at well
    have second := Eventually.under fun room =>
      meaningAdvances middle well.2.1 ends.2.1 (answersAfter left answers room)
    have third := Eventually.under fun room : leastOf left.mayBeEmpty ≤ n =>
      Eventually.under fun more => meaningAdvances right well.2.2 ends.2.2
        (answersAfter middle (answersAfter left answers room) more)
    refine ((meaningAdvances left well.1 ends.1 answers).both (second.both third)).mono ?_
    intro depth advances
    refine Parser.advancesLess (Parser.betweenAdvances advances.1 advances.2.1 advances.2.2)
      (Nat.le_refl n) (Nat.le_trans (leastAnd _ _) (Nat.add_le_add_left (leastAnd _ _) _))
  | .block start terminator escape, n, barred, env, well, ends, answers => by
    simp only [wellFormed, Bool.and_eq_true, Bool.not_eq_true'] at well
    obtain ⟨first, second, third, progress⟩ := well
    have terminates := Eventually.under fun room =>
      meaningAdvances terminator second ends.2.1 (answersAfter start answers room)
    have escapes := Eventually.under fun room =>
      meaningAdvances escape third ends.2.2 (answersAfter start answers room)
    refine ((meaningAdvances start first ends.1 answers).both (terminates.both escapes)).mono ?_
    rintro depth ⟨opens, closes, moves⟩
    have least : leastOf escape.mayBeEmpty = 1 := by rw [progress, leastOf, if_neg Bool.false_ne_true]
    rw [least] at moves
    have pair := Parser.blockAdvances Value.char opens closes moves
    rw [meaning, mayBeEmpty]
    exact Parser.advancesLess pair (Nat.le_refl n) (leastAnd _ _)
  | .ref name, n, barred, env, well, _, answers => by
    have allowed : name ∉ barred := by simpa [wellFormed] using well
    cases found : Table.find? name env with
    | none => exact .always fun _ => by simpa [meaning, found] using Parser.failAdvances
    | some c =>
      simp only [meaning, found, Option.elim_some]
      exact (answers name c found).2 allowed
  | .recursive name body, n, barred, env, well, ends, answers => by
    simp only [wellFormed, Bool.or_eq_true] at well
    rcases well with nests | well
    · refine (nestedAnswers nests env n).mono fun depth advances => ?_
      exact Parser.advancesLess advances (Nat.le_refl n) (by unfold leastOf; split <;> omega)
    · have inner : ∀ d ∈ [(name, body)], ∀ m env', Answers m (name :: barred) env' →
          Eventually fun depth =>
            (d.2.meaning (Closure.run depth) env').Advances m (leastOf d.2.mayBeEmpty) :=
        List.forall_mem_singleton.mpr fun m env' => meaningAdvances body well ends
      exact Environment.definitionsAnswer inner answers _ List.mem_cons_self
  | .together definitions body, n, barred, env, well, ends, answers => by
    simp only [wellFormed, Bool.and_eq_true] at well
    have inner := definitionsAdvance definitions well.1 ends.1
    refine meaningAdvances body well.2 ends.2 (Environment.answersDefining answers ?_)
    intro m within d inside
    have shorter : Answers m barred env := by
      rcases Nat.lt_or_eq_of_le within with less | rfl
      · exact Environment.answersShorter less answers barred
      · exact answers
    exact (Environment.definitionsAnswer inner shorter d inside).mono fun _ advances =>
      Parser.advancesAny advances

theorem choiceMembersAdvance : ∀ (gs : List Grammar) {n : Nat} {barred : List String}
    {env : Environment}, wellFormedAll barred gs = true → LeavesOfAll Leaf.LeavesEnd gs →
      Answers n barred env → Eventually fun depth =>
        ∀ p ∈ meanings (Closure.run depth) env gs, p.Advances n (leastOf (oneMayBeEmpty gs))
  | [], _, _, _, _, _, _ => .always fun _ => List.forall_mem_nil _
  | g :: gs, _, _, _, well, ends, answers => by
    simp only [wellFormedAll, Bool.and_eq_true] at well
    refine ((meaningAdvances g well.1 ends.1 answers).both
      (choiceMembersAdvance gs well.2 ends.2 answers)).mono fun depth advances => ?_
    have least := leastOr g.mayBeEmpty (oneMayBeEmpty gs)
    refine List.forall_mem_cons.mpr
      ⟨Parser.advancesLess advances.1 (Nat.le_refl _) least.1, fun p inside => ?_⟩
    exact Parser.advancesLess (advances.2 p inside) (Nat.le_refl _) least.2

theorem sequenceMembersAdvance : ∀ (gs : List Grammar) {n : Nat} {barred : List String}
    {env : Environment}, wellFormedInTurn barred gs = true → LeavesOfAll Leaf.LeavesEnd gs →
      Answers n barred env → Eventually fun depth =>
        (Parser.sequence (meanings (Closure.run depth) env gs)).Advances n (leastOf (allMayBeEmpty gs))
  | [], _, _, _, _, _, _ => .always fun _ => Parser.sequenceNilAdvances
  | g :: gs, n, barred, env, well, ends, answers => by
    simp only [wellFormedInTurn, Bool.and_eq_true] at well
    have others := Eventually.under fun room =>
      sequenceMembersAdvance gs well.2 ends.2 (answersAfter g answers room)
    refine ((meaningAdvances g well.1 ends.1 answers).both others).mono fun depth advances => ?_
    exact Parser.advancesLess (Parser.sequenceAdvances advances.1 advances.2) (Nat.le_refl n)
      (leastAnd _ _)

theorem definitionsAdvance : ∀ (gs : List (String × Grammar)) {barred : List String},
    wellFormedDefinitions barred gs = true → LeavesOfDefinitions Leaf.LeavesEnd gs →
      ∀ d ∈ gs, ∀ n env, Answers n barred env → Eventually fun depth =>
        (d.2.meaning (Closure.run depth) env).Advances n (leastOf d.2.mayBeEmpty)
  | [], _, _, _ => List.forall_mem_nil _
  | (_, g) :: gs, _, well, ends => by
    simp only [wellFormedDefinitions, Bool.and_eq_true] at well
    exact List.forall_mem_cons.mpr ⟨fun _ _ answers => meaningAdvances g well.1 ends.1 answers,
      definitionsAdvance gs well.2 ends.2⟩

end

/-- A well-formed grammar matches or does not, on every text. To have one reference open for each cell
at each end of the text is enough, and more than enough changes nothing. -/
theorem wellFormedAnswers {g : Grammar} (well : g.wellFormed [] = true)
    (ends : g.Leaves Leaf.LeavesEnd) (input : Text) :
    (∃ found, (g.parser input).ending = .ok found) ∧
    ∀ depth, g.cells * (input.length + 1) + 1 ≤ depth →
      g.assembled.rule.parser (g.assembled.store.invoke
        (g.assembled.store.owned [g.assembled.rule]) depth) input = g.parser input := by
  obtain ⟨enough, advances⟩ := meaningAdvances g well ends
    (fun name c found => by simp [Table.find?] at found : Answers input.length [] [])
  obtain ⟨found, ended⟩ := Parser.advancesAnswers (advances enough (Nat.le_refl _)) (Nat.le_refl _)
  have settled := parserSettles ends (Run.answerEnds ended)
  rw [← settled] at ended
  exact ⟨⟨found, ended⟩, fun depth enough => parserDeeper enough (Run.answerEnds ended)⟩

theorem nestedListsAnswer :
    let lists : Grammar := .together
      [("list", .sequence [literal "(", .choice [.ref "tail", .sequence [.ref "list", .ref "tail"]]]),
       ("tail", .choice [literal ")", .sequence [literal ",", .ref "list", .ref "tail"]])]
      (.sequence [.ref "list", Json.value, Parens.matcher])
    lists.wellFormed [] = true ∧ lists.Leaves Leaf.LeavesEnd ∧
      ∃ found, (lists.parser "((),())[0](())".toList).ending = .ok found := by
  have well : (together
      [("list", .sequence [literal "(", .choice [.ref "tail", .sequence [.ref "list", .ref "tail"]]]),
       ("tail", .choice [literal ")", .sequence [literal ",", .ref "list", .ref "tail"]])]
      (.sequence [.ref "list", Json.value, Parens.matcher])).wellFormed [] = true := rfl
  refine ⟨well, ?ends, (wellFormedAnswers well ?ends _).1⟩
  repeat' constructor

end Grammar
end Descent
