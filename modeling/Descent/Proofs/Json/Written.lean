import Descent.Proofs.Blank
import Descent.Proofs.Json.Number
import Descent.Proofs.Json.Quoted
import Descent.Proofs.Lookup
import Descent.Value.Basic
/-!
JSON texts and the values they are written for, as a grammar and not as a parser: nothing is said of
the order in which anything is tried, nor of how far a part may reach. What numbers may be written
is left open.
-/
namespace Descent

namespace Json
open Blank (isBlank)
open Quoted (Quotes)

def Blanks (t : Text) : Prop :=
  ∀ c ∈ t, isBlank c = true

variable {α : Type}

inductive Padded (core : Text → α → Prop) : Text → α → Prop
  | mk {before t after a} (left : Blanks before) (inner : core t a) (right : Blanks after) :
      Padded core (before ++ (t ++ after)) a

inductive Separated (item : Text → α → Prop) : Text → List α → Prop
  | last {t a} (only : item t a) : Separated item t [a]
  | more {t a u as} (first : item t a) (rest : Separated item u as) :
      Separated item (t ++ ',' :: u) (a :: as)

inductive Member (value : Text → Value → Prop) : Text → String × Value → Prop
  | mk {k key t v} (name : Padded Quotes k key) (inner : value t v) :
      Member value (k ++ ':' :: t) (key, v)

def LastOf (pairs : List (String × Value)) (members : Table Value) : Prop :=
  members.Sorted ∧
    ∀ key, members.find? key = (pairs.reverse.find? fun pair => pair.1 == key).map Prod.snd

inductive Core (number : Text → Value → Prop) : Text → Value → Prop
  | true : Core number "true".toList (.bool true)
  | false : Core number "false".toList (.bool false)
  | null : Core number "null".toList .null
  | number {t v} (spelled : number t v) : Core number t v
  | string {t s} (quoted : Quotes t s) : Core number t (.string s)
  | emptyList {b} (blank : Blanks b) : Core number ('[' :: (b ++ [']'])) (.list [])
  | list {t vs} (items : Separated (Padded (Core number)) t vs) :
      Core number ('[' :: (t ++ [']'])) (.list vs)
  | emptyObject {b} (blank : Blanks b) : Core number ('\x7b' :: (b ++ ['\x7d'])) (.object [])
  | object {t pairs members} (given : Separated (Member (Padded (Core number))) t pairs)
      (kept : LastOf pairs members) : Core number ('\x7b' :: (t ++ ['\x7d'])) (.object members)

def Written (number : Text → Value → Prop) : Text → Value → Prop :=
  Padded (Core number)

theorem lastOfIff {pairs : List (String × Value)} {members : Table Value} :
    LastOf pairs members ↔ members = Table.ofList pairs := by
  constructor
  · rintro ⟨sorted, last⟩
    exact Table.sortedUnique sorted (Table.ofListSorted pairs) fun name => by
      rw [last, Table.findOfList]
  · rintro rfl
    exact ⟨Table.ofListSorted pairs, Table.findOfList pairs⟩

end Json
end Descent
