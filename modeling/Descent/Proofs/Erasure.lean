import Descent.Proofs.Bare
import Descent.Proofs.Leftover
import Descent.Proofs.Related
/-!
Journals without the spans of some labels. A run of a parser with these spans ends as a run without them
does, with success, with a mismatch or with a stop, and its journal is that of the other once the spans are
erased. The spans of a run are all closed behind it, so it does not matter which are open around it.
-/
namespace Descent

namespace Event

/-- The event is the start or the end of a span with one of the labels, or what such a span reports.
`opened` are the labels of the spans around the event, the innermost first. -/
def adds (added : String → Bool) (opened : List String) : Event → Bool
  | .enter label => added label
  | .exit label => added label
  | .matched _ _ => opened.head?.any added
  | .unmatched _ => opened.head?.any added
  | _ => false

def opens (opened : List String) : Event → List String
  | .enter label => label :: opened
  | .exit _ => opened.tail
  | _ => opened

end Event

namespace Journal

def erased (added : String → Bool) : List String → Journal → Journal
  | _, [] => []
  | opened, e :: later =>
    if e.adds added opened then erased added (e.opens opened) later
    else e :: erased added (e.opens opened) later

variable {added : String → Bool} {opened : List String} {later : Journal} {label : String}

theorem erasedKept {e : Event} (kept : e.adds added opened = false) :
    erased added opened (e :: later) = e :: erased added (e.opens opened) later :=
  if_neg (by simp [kept])

theorem erasedAdded {e : Event} (adds : e.adds added opened = true) :
    erased added opened (e :: later) = erased added (e.opens opened) later :=
  if_pos adds

theorem erasedEnter (other : added label = false) : erased added opened (.enter label :: later) =
    .enter label :: erased added (label :: opened) later :=
  erasedKept other

theorem erasedExit (other : added label = false) :
    erased added (label :: opened) (.exit label :: later) =
      .exit label :: erased added opened later :=
  erasedKept other

theorem erasedAddedEnter (adds : added label = true) : erased added opened (.enter label :: later) =
    erased added (label :: opened) later :=
  erasedAdded adds

theorem erasedAddedExit (adds : added label = true) :
    erased added (label :: opened) (.exit label :: later) = erased added opened later :=
  erasedAdded adds

theorem erasedDefined (counts : List Nat) :
    erased added opened (counts.map .defined ++ later) =
      counts.map .defined ++ erased added opened later := by
  induction counts with
  | nil => rfl
  | cons n counts ih =>
    rw [List.map_cons, List.cons_append, erasedKept rfl, List.cons_append]
    exact congrArg (Event.defined n :: ·) ih

example : erased (· == "new") [] [.defined 1, .enter "new", .enter "old", .unmatched 3, .exit "old",
    .unmatched 3, .exit "new", .rejected 3] =
      [.defined 1, .enter "old", .unmatched 3, .exit "old", .rejected 3] := by
  decide

end Journal

namespace Run

variable {added : String → Bool} {α β : Type} {good : α → Prop} {r r' : Run α}

structure Erases (added : String → Bool) {α : Type} (good : α → Prop) (r r' : Run α) : Prop where
  ending : r.ending = r'.ending
  journal (opened later) : Journal.erased added opened (r.journal ++ later) =
    r'.journal ++ Journal.erased added opened later
  result (a) (ended : r.ending = .ok a) : good a

theorem erasesQuiet (quiet : r.journal = []) (holds : ∀ a, r.ending = .ok a → good a) :
    r.Erases added good r :=
  ⟨rfl, fun _ _ => by rw [quiet]; rfl, holds⟩

theorem erasesBind {better : β → Prop} {next next' : α → Run β} (first : r.Erases added good r')
    (rest : ∀ a, good a → (next a).Erases added better (next' a)) :
    (r >>= next).Erases added better (r' >>= next') := by
  obtain ⟨before, ending⟩ := r
  obtain ⟨before', ending'⟩ := r'
  obtain ⟨same, erased, holds⟩ := first
  cases same
  cases ending with
  | error s => exact ⟨rfl, erased, by simp [bindError]⟩
  | ok a =>
    have after := rest a (holds a rfl)
    refine ⟨after.ending, fun opened later => ?_, after.result⟩
    simp only [bindOk, behind, List.append_assoc]
    rw [erased, after.journal]

theorem erasesComposes : Composes fun _ => Erases added where
  pure holds := erasesQuiet rfl fun _ ended => Except.ok.inj ended ▸ holds
  bind := erasesBind
  stalls := erasesQuiet rfl (by simp [panic, stop])

end Run

namespace Parser

variable {added : String → Bool} {p q : Parser Value} {label : String}

def Erases (added : String → Bool) (p q : Parser Value) : Prop :=
  Related (fun _ => Run.Erases added) (fun _ => True) p q

def reported (input : Text) : Except Stop (Option (Match Value)) → Journal
  | .ok found => (report input found).journal
  | .error _ => []

def checked (input : Text) : Except Stop (Option (Match Value)) → Except Stop (Option (Match Value))
  | .ok found => (report input found).ending.map fun _ => found
  | .error s => .error s

theorem tracedRun (label : String) (p : Parser Value) (input : Text) : traced label p input =
    ⟨.enter label :: ((p input).journal ++ (reported input (p input).ending ++ [.exit label])),
      checked input (p input).ending⟩ := by
  unfold traced
  generalize p input = r
  obtain ⟨journal, ending⟩ := r
  cases ending with
  | error s => simp [Run.bindError, reported, checked]
  | ok found =>
    simp only [Run.bindOk, reported, checked]
    generalize report input found = reporting
    obtain ⟨written, ending⟩ := reporting
    cases ending <;> simp [Run.bindOk, Run.bindError, Run.behind, Run.pureEq, Except.map]

theorem reportedOnce (input : Text) (ending : Except Stop (Option (Match Value))) :
    reported input ending = [] ∨ (∃ n k, reported input ending = [.matched n k]) ∨
      ∃ n, reported input ending = [.unmatched n] := by
  cases ending with
  | error s => exact .inl rfl
  | ok found =>
    cases found with
    | none => exact .inr (.inr ⟨_, rfl⟩)
    | some m =>
      simp only [reported, report]
      cases m.consumed input with
      | ok n => exact .inr (.inl ⟨n, _, rfl⟩)
      | error cause => exact .inl rfl

theorem reportedErased (label : String) (opened : List String) (later : Journal) (input : Text)
    (ending : Except Stop (Option (Match Value))) :
    Journal.erased added (label :: opened) (reported input ending ++ later) =
      (if added label then [] else reported input ending) ++
        Journal.erased added (label :: opened) later := by
  rcases reportedOnce input ending with none | ⟨n, k, one⟩ | ⟨n, one⟩
  · simp [none]
  · cases adds : added label <;> simp [one, Journal.erased, Event.adds, Event.opens, adds]
  · cases adds : added label <;> simp [one, Journal.erased, Event.adds, Event.opens, adds]

theorem tracedKept (other : added label = false) (erases : p.Erases added q) :
    (traced label p).Erases added (traced label q) := by
  intro input _
  obtain ⟨same, inside, -⟩ := erases input trivial
  rw [tracedRun, tracedRun, ← same]
  refine ⟨rfl, fun opened later => ?_, fun _ _ _ _ => trivial⟩
  simp only [List.cons_append, List.append_assoc, List.nil_append]
  rw [Journal.erasedEnter other, inside, reportedErased, if_neg (by simp [other]),
    Journal.erasedExit other]

theorem checkedEnd (ends : p.LeavesEnd) (input : Text) :
    checked input (p input).ending = (p input).ending := by
  cases ended : (p input).ending with
  | error s => rfl
  | ok found =>
    cases found with
    | none => rfl
    | some m =>
      obtain ⟨used, -, counted, -⟩ := leftoverSplits ends ended
      simp [checked, report, counted, Run.record, Except.map]

theorem tracedErased (adds : added label = true) (ends : p.LeavesEnd) (erases : p.Erases added q) :
    (traced label p).Erases added q := by
  intro input _
  obtain ⟨same, inside, -⟩ := erases input trivial
  rw [tracedRun]
  refine ⟨(checkedEnd ends input).trans same, fun opened later => ?_, fun _ _ _ _ => trivial⟩
  simp only [List.cons_append, List.append_assoc, List.nil_append]
  rw [Journal.erasedAddedEnter adds, inside, reportedErased, if_pos adds, List.nil_append,
    Journal.erasedAddedExit adds]

end Parser

theorem Leaf.parserErases {added : String → Bool} (l : Leaf) : l.parser.Erases added l.parser :=
  fun input _ => Run.erasesQuiet (l.parserQuiet input) fun _ _ _ _ => trivial

namespace Rule
open Descent.Parser (choiceRelated sequenceRelated betweenRelated blockRelated replicateRelated)
open Run (erasesComposes)

variable {added : String → Bool} {call call' : Reference → Parser Value}

mutual

theorem parserErases (calls : ∀ r, (call r).Erases added (call' r)) (ends : ∀ r, (call r).LeavesEnd) :
    ∀ rule : Rule, rule.Leaves Leaf.LeavesEnd →
      (rule.parser call).Erases added ((rule.bare added).parser call')
  | .leaf l, _ => l.parserErases
  | .wrap w body, own => by
    have inner := parserErases calls ends body own
    rw [bare]
    split
    · rename_i adds
      cases w with
      | traced label => exact Parser.tracedErased adds (body.parserEnd ends own) inner
      | _ => contradiction
    · rename_i other
      refine w.parserRelated erasesComposes (fun label same related => ?_) fun _ => inner
      subst same
      exact Parser.tracedKept (by simpa [Wrapper.adds] using other) related
  | .choice members, own => choiceRelated erasesComposes (parsersErase calls ends members own)
  | .sequence members, own => sequenceRelated erasesComposes (parsersErase calls ends members own)
  | .choiceOf n member last, own =>
    choiceRelated erasesComposes (List.rel_append
      (replicateRelated n (parserErases calls ends member own.1))
      (.cons (parserErases calls ends last own.2) .nil))
  | .between left middle right, own =>
    betweenRelated erasesComposes (parserErases calls ends left own.1)
      (parserErases calls ends middle own.2.1) (parserErases calls ends right own.2.2)
  | .block start terminator escape, own =>
    blockRelated erasesComposes (fun _ _ _ => trivial) _ (parserErases calls ends start own.1)
      (parserErases calls ends terminator own.2.1) (parserErases calls ends escape own.2.2)
  | .refer r, _ => calls r

theorem parsersErase (calls : ∀ r, (call r).Erases added (call' r)) (ends : ∀ r, (call r).LeavesEnd) :
    ∀ rules : List Rule, LeavesOfAll Leaf.LeavesEnd rules →
      List.Forall₂ (Parser.Erases added) (parsers call rules) (parsers call' (bareAll added rules))
  | [], _ => .nil
  | rule :: rules, own =>
    .cons (parserErases calls ends rule own.1) (parsersErase calls ends rules own.2)

end

end Rule

namespace Store

variable {added : String → Bool} {σ : Store}

theorem invokeErases (leaves : σ.Leaves Leaf.LeavesEnd) (live : List Nat) (depth : Nat) (r : Reference) :
    (σ.invoke live depth r).Erases added ((σ.bare added).invoke live depth r) := by
  induction depth generalizing r with
  | zero => exact fun input _ => Run.erasesQuiet rfl fun _ _ _ _ => trivial
  | succ depth ih =>
    intro input _
    rw [invoke, invoke, bareResolve]
    cases found : σ.resolve live r with
    | error cause => exact Run.erasesQuiet rfl fun _ _ _ _ => trivial
    | ok rule =>
      have own := leaves rule (memOfDefinition (resolveDefinition found))
      exact Rule.parserErases ih (invokeEnd leaves live depth) rule own input trivial

theorem parserErases (leaves : σ.Leaves Leaf.LeavesEnd) (alive : List Rule) {rule : Rule}
    (own : rule.Leaves Leaf.LeavesEnd) : (σ.parser alive rule).Erases added
      ((σ.bare added).parser (alive.map (Rule.bare added)) (rule.bare added)) := by
  intro input _
  rw [parser, parser, bareOwned, bareDepthBound]
  exact Rule.parserErases (invokeErases leaves _ _) (invokeEnd leaves _ _) rule own input trivial

end Store
end Descent
