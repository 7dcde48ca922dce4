import Descent.Blueprint
import Descent.Proofs.Ownership
/-!
Grammars with one cell. What is held is alive, so the cell of a grammar that refers to itself is
there while the grammar is run, and a reference to it is the grammar's own body once more. The depth
of open references is one more than the length of the text, and two.
-/
namespace Descent

def Parser.unrolled (body : Parser Value → Parser Value) : Nat → Parser Value
  | 0 => fun _ => Run.stop .exhausted
  | depth + 1 => body (unrolled body depth)

namespace Store

variable {rule outer : Rule} {issued : Nat}

theorem invokeUnrolled {body : Parser Value → Parser Value} {live : List Nat} (alive : 0 ∈ live)
    (inside : ∀ call, rule.parser call = body (call (.weak 0))) (depth : Nat) {r : Reference}
    (own : r.cell = 0) :
    (Store.mk [some rule] issued).invoke live depth r = Parser.unrolled body depth := by
  induction depth generalizing r with
  | zero => rfl
  | succ depth ih =>
    have resolves : (Store.mk [some rule] issued).resolve live r = .ok rule := by
      cases r <;> cases own <;> simp [resolve, definition?, alive, Reference.cell]
    funext input
    rw [invoke, resolves]
    dsimp only
    rw [inside, ih (r := .weak 0) rfl]
    rfl

theorem parserUnrolled (body context : Parser Value → Parser Value)
    (inside : ∀ call, rule.parser call = body (call (.weak 0)))
    (outside : ∀ call, outer.parser call = context (call (.owner 0))) (owns : 0 ∈ outer.owns)
    (input : Text) : (Store.mk [some rule] issued).parser [outer] outer input =
      context (Parser.unrolled body (input.length + 2)) input := by
  have alive : 0 ∈ (Store.mk [some rule] issued).owned [outer] :=
    heldOwned _ List.mem_cons_self owns Nat.zero_lt_one
  have depth : (Store.mk [some rule] issued).depthBound input = input.length + 2 := by
    simp [depthBound]
  rw [parser, outside, depth, invokeUnrolled alive inside _ rfl]

end Store
end Descent
