import Descent.Text
import Descent.Run
/-!
A parser looks at the start of a text. It matches, with the rest of the text and the values it
produced, or it does not, which is an answer and no error. The parsers here are those that look at
scalars themselves; all others are built of them.
-/
namespace Descent

structure Match (α : Type) where
  rest : Text
  produced : List α
  deriving BEq, DecidableEq, Repr

def Match.consumed {α : Type} (m : Match α) (input : Text) : Except Panic Nat :=
  if m.rest.byteLength ≤ input.byteLength then
    .ok (input.byteLength - m.rest.byteLength)
  else
    .error .foreignInput

theorem Match.consumedSplits {α : Type} (used : Text) (m : Match α) :
    m.consumed (used ++ m.rest) = .ok used.byteLength := by
  simp [consumed, Text.byteLengthAppend]

abbrev Parser (α : Type) := Text → Run (Option (Match α))

namespace Parser

variable {α : Type}

def anyChar : Parser Char
  | [] => pure none
  | c :: rest => pure (some ⟨rest, [c]⟩)

/-- Matches the scalars of `expected` and produces it. An empty `expected` never matches, so that
no literal matches without consuming. -/
def literal (expected : String) : Parser String := fun input =>
  if expected.isEmpty then pure none
  else pure ((Text.after? expected.toList input).map fun rest => ⟨rest, [expected]⟩)

theorem literalMatches {expected : String} {input : Text} {m : Match String} :
    literal expected input = pure (some m) ↔
      expected ≠ "" ∧ input = expected.toList ++ m.rest ∧ m.produced = [expected] := by
  obtain ⟨rest, produced⟩ := m
  simp only [literal]
  split
  · rename_i empty
    have nothing : expected = "" := by simpa using empty
    simp [nothing, Run.pureEq]
  · rename_i full
    have something : expected ≠ "" := by simpa using full
    constructor
    · intro found
      cases h : Text.after? expected.toList input with
      | none => simp [h, Run.pureEq] at found
      | some left =>
        simp only [h, Option.map_some, Run.pureEq, Run.mk.injEq, Except.ok.injEq,
          Option.some.injEq, Match.mk.injEq, true_and] at found
        obtain ⟨rfl, rfl⟩ := found
        exact ⟨something, Text.afterSplits h, rfl⟩
    · rintro ⟨-, rfl, rfl⟩
      rw [Text.afterAppend]
      rfl

def fail : Parser α := fun _ => pure none

def succeed : Parser α := fun input => pure (some ⟨input, []⟩)

def atEnd : Parser α
  | [] => pure (some ⟨[], []⟩)
  | _ :: _ => pure none

def take (n : Nat) : Parser String := fun input =>
  if n ≤ input.length then pure (some ⟨input.drop n, [String.ofList (input.take n)]⟩)
  else pure none

end Parser
end Descent
