import Descent.Grammar
/-!
Assembled grammars. In a rule every name has become a reference to a cell. A reference owns its cell
or only watches it, and is one of the cell's handles or the finished parser that its definition
gave. What a rule does depends on its cells through `call` alone.
-/
namespace Descent

inductive Reference where
  | owner (cell : Nat)
  /-- A handle that owns the cell. Copies of a handle have its tag, and no other handle has. -/
  | handle (cell tag : Nat)
  | weak (cell : Nat)
  deriving DecidableEq, Repr

namespace Reference

def cell : Reference → Nat
  | .owner c => c
  | .handle c _ => c
  | .weak c => c

def isHandle : Reference → Bool
  | .owner _ => false
  | _ => true

def owned? : Reference → Option Nat
  | .owner c => some c
  | .handle c _ => some c
  | .weak _ => none

end Reference

inductive Rule where
  | leaf (l : Leaf)
  | wrap (w : Wrapper) (body : Rule)
  | choice (members : List Rule)
  | sequence (members : List Rule)
  | choiceOf (n : Nat) (member last : Rule)
  | between (left middle right : Rule)
  | block (start terminator escape : Rule)
  | refer (r : Reference)

namespace Rule

mutual

def parser (call : Reference → Parser Value) : Rule → Parser Value
  | .leaf l => l.parser
  | .wrap w body => w.parser (parser call body)
  | .choice members => Parser.choice (parsers call members)
  | .sequence members => Parser.sequence (parsers call members)
  | .choiceOf n member last =>
    Parser.choice (List.replicate n (parser call member) ++ [parser call last])
  | .between left middle right =>
    Parser.between (parser call left) (parser call middle) (parser call right)
  | .block start terminator escape =>
    Parser.block .char (parser call start) (parser call terminator) (parser call escape)
  | .refer r => call r

def parsers (call : Reference → Parser Value) : List Rule → List (Parser Value)
  | [] => []
  | rule :: rules => parser call rule :: parsers call rules

end

mutual

def references : Rule → List Reference
  | .leaf _ => []
  | .wrap w body => if w.keeps then references body else []
  | .choice members => referencesOfAll members
  | .sequence members => referencesOfAll members
  | .choiceOf n member last =>
    (if n = 0 then [] else references member) ++ references last
  | .between left middle right => references left ++ references middle ++ references right
  | .block start terminator escape =>
    references start ++ references terminator ++ references escape
  | .refer r => [r]

def referencesOfAll : List Rule → List Reference
  | [] => []
  | rule :: rules => references rule ++ referencesOfAll rules

end

def owns (rule : Rule) : List Nat :=
  rule.references.filterMap Reference.owned?

end Rule
end Descent
