import Descent.Table
import Descent.Text
import Descent.Binary64
/-!
The values that grammars produce: scalars and texts, numbers of three kinds, lists, and objects, whose
members are a table.
-/
namespace Descent

inductive Value where
  | null
  | bool (b : Bool)
  | char (c : Char)
  | string (s : String)
  | unsigned (n : UInt64)
  | signed (n : Int64)
  | float (x : Binary64)
  | list (items : List Value)
  | object (members : List (String × Value))
  deriving Repr

namespace Value

mutual

def same : Value → Value → Bool
  | .null, .null => true
  | .bool a, .bool b => a == b
  | .char c, .char d => c == d
  | .string s, .string t => s == t
  | .unsigned m, .unsigned n => m == n
  | .signed m, .signed n => m == n
  | .float x, .float y => x.same y
  | .list xs, .list ys => sameItems xs ys
  | .object ms, .object ns => sameMembers ms ns
  | _, _ => false

def sameItems : List Value → List Value → Bool
  | [], [] => true
  | x :: xs, y :: ys => same x y && sameItems xs ys
  | _, _ => false

def sameMembers : List (String × Value) → List (String × Value) → Bool
  | [], [] => true
  | (k, v) :: ms, (l, w) :: ns => k == l && same v w && sameMembers ms ns
  | _, _ => false

end

instance : BEq Value := ⟨same⟩

mutual

def text : Value → String
  | .char c => c.toString
  | .string s => s
  | .unsigned n => (n.toNat).repr
  | .signed n => (n.toInt).repr
  | .list items => textOfItems items
  | _ => ""

def textOfItems : List Value → String
  | [] => ""
  | v :: vs => text v ++ textOfItems vs

end

mutual

def depth : Value → Nat
  | .list items => depthOfItems items + 1
  | .object members => depthOfMembers members + 1
  | _ => 0

def depthOfItems : List Value → Nat
  | [] => 0
  | v :: vs => max (depth v) (depthOfItems vs)

def depthOfMembers : List (String × Value) → Nat
  | [] => 0
  | (_, v) :: ms => max (depth v) (depthOfMembers ms)

end

mutual

def nodes : Value → Nat
  | .list items => nodesOfItems items + 1
  | .object members => nodesOfMembers members + 1
  | _ => 1

def nodesOfItems : List Value → Nat
  | [] => 0
  | v :: vs => nodes v + nodesOfItems vs

def nodesOfMembers : List (String × Value) → Nat
  | [] => 0
  | (_, v) :: ms => nodes v + nodesOfMembers ms

end

def ofMembers (members : List (String × Value)) : Value :=
  .object (Table.ofList members)

end Value
end Descent
