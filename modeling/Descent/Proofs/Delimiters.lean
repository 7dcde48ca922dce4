import Descent.Proofs.Blocks
/-!
Blocks between two fixed texts. Without an escape the content is walked scalar by scalar up to where the
closing text begins for the first time, so such a block is a search for its leftmost occurrence,
whatever the two texts have in common.
-/
namespace Descent

structure Text.Leftmost (word text before after : Text) : Prop where
  splits : text = before ++ (word ++ after)
  least {others behind} (other : text = others ++ (word ++ behind)) : before.length ≤ others.length

namespace Text

variable {word text before after : Text}

theorem leftmostInfix (leftmost : Leftmost word text before after) : word <:+: text :=
  ⟨before, after, by rw [leftmost.splits, List.append_assoc]⟩

theorem leftmostHere (begins : word <+: text) : ∃ after, Leftmost word text [] after := by
  obtain ⟨after, rfl⟩ := begins
  exact ⟨after, rfl, fun _ => Nat.zero_le _⟩

theorem leftmostLater {c : Char} (different : ¬ word <+: c :: text)
    (later : Leftmost word text before after) : Leftmost word (c :: text) (c :: before) after := by
  refine ⟨by rw [later.splits, List.cons_append], fun {others behind} other => ?_⟩
  cases others with
  | nil => exact absurd ⟨behind, other.symm⟩ different
  | cons d others =>
    obtain ⟨-, tails⟩ := List.cons.inj other
    exact Nat.succ_le_succ (later.least tails)

theorem leftmostExists (occurs : word <:+: text) :
    ∃ before after, Leftmost word text before after := by
  induction text with
  | nil => exact ⟨[], leftmostHere (List.infix_nil.mp occurs ▸ List.nil_prefix)⟩
  | cons c text ih =>
    by_cases begins : word <+: c :: text
    · exact ⟨[], leftmostHere begins⟩
    · have inside := (List.infix_cons_iff.mp occurs).resolve_left begins
      obtain ⟨before, after, later⟩ := ih inside
      exact ⟨c :: before, after, leftmostLater begins later⟩

end Text

namespace Parser
open Text (Leftmost)

variable {opening closing : String} {input text between after : Text}

theorem walkBetween (full : closing ≠ "") (ended : after = [] ∨ closing.toList <+: after)
    (least : ∀ others behind, between ++ after = others ++ (closing.toList ++ behind) →
      between.length ≤ others.length) :
    Walk Char.toString (literal closing) fail (between ++ after) (between.map Char.toString) after := by
  induction between with
  | nil =>
    refine .stop rfl (ended.imp_right fun begins => ?_)
    obtain ⟨behind, rfl⟩ := begins
    exact ⟨_, literalHere full behind⟩
  | cons c between ih =>
    have inside : (literal closing).Yields (c :: (between ++ after)) none := by
      rw [literalNone full]
      intro begins
      obtain ⟨behind, same⟩ := begins
      exact absurd (least [] behind same.symm) (by simp)
    refine .scalar rfl inside (ih fun others behind same => ?_)
    have longer := least (c :: others) behind (congrArg (c :: ·) same)
    exact Nat.le_of_succ_le_succ longer

theorem walkClosed (full : closing ≠ "") (leftmost : Leftmost closing.toList text between after) :
    Walk Char.toString (literal closing) fail text (between.map Char.toString)
      (closing.toList ++ after) := by
  obtain ⟨rfl, least⟩ := leftmost
  exact walkBetween full (.inr (List.prefix_append _ _)) fun _ _ => least

theorem walkUnclosed (full : closing ≠ "") (absent : ¬ closing.toList <:+: text) :
    Walk Char.toString (literal closing) fail text (text.map Char.toString) [] := by
  have least : ∀ others behind, text ++ [] = others ++ (closing.toList ++ behind) →
      text.length ≤ others.length := by
    intro others behind same
    rw [List.append_nil] at same
    exact absurd ⟨others, behind, by rw [same, List.append_assoc]⟩ absent
  have walk := walkBetween full (.inl rfl) least
  rwa [List.append_nil] at walk

theorem delimitedUnopened (full : opening ≠ "") (differs : ¬ opening.toList <+: input) :
    (block Char.toString (literal opening) (literal closing) fail).Yields input none :=
  blockMiss ((literalNone full).mpr differs)

theorem delimitedWalk (begun : opening ≠ "") {pieces : List String} {last : Text}
    (walk : Walk Char.toString (literal closing) fail text pieces last) {found : Option (Match String)}
    (closed : (literal closing).Yields last found) :
    (block Char.toString (literal opening) (literal closing) fail).Yields (opening.toList ++ text)
      (found.map fun o => ⟨o.rest, [opening] ++ pieces ++ o.produced⟩) :=
  blockYields (fun _ => advancesAny (literalAdvances closing)) (fun _ => failAdvances)
    (literalHere begun text) walk closed

theorem delimitedUnclosed (begun : opening ≠ "") (ended : closing ≠ "")
    (absent : ¬ closing.toList <:+: text) :
    (block Char.toString (literal opening) (literal closing) fail).Yields
      (opening.toList ++ text) none := by
  have missed : (literal closing).Yields [] none := by
    rw [literalNone ended, List.prefix_nil, String.toList_eq_nil_iff]
    exact ended
  exact delimitedWalk begun (walkUnclosed ended absent) missed

theorem delimitedClosed (begun : opening ≠ "") (ended : closing ≠ "")
    (leftmost : Leftmost closing.toList text between after) :
    (block Char.toString (literal opening) (literal closing) fail).Yields (opening.toList ++ text)
      (some ⟨after, [opening] ++ between.map Char.toString ++ [closing]⟩) :=
  delimitedWalk begun (walkClosed ended leftmost) (literalHere ended after)

theorem delimitedEnds (begun : opening ≠ "") (ended : closing ≠ "") (input : Text) :
    ((∀ text, input = opening.toList ++ text → ¬ closing.toList <:+: text) ∧
      (block Char.toString (literal opening) (literal closing) fail).Yields input none) ∨
    ∃ text between after, input = opening.toList ++ text ∧
      Leftmost closing.toList text between after ∧
      (block Char.toString (literal opening) (literal closing) fail).Yields input
        (some ⟨after, [opening] ++ between.map Char.toString ++ [closing]⟩) := by
  by_cases opened : opening.toList <+: input
  · obtain ⟨text, rfl⟩ := opened
    by_cases occurs : closing.toList <:+: text
    · obtain ⟨between, after, leftmost⟩ := Text.leftmostExists occurs
      exact .inr ⟨text, between, after, rfl, leftmost, delimitedClosed begun ended leftmost⟩
    · refine .inl ⟨fun other same => ?_, delimitedUnclosed begun ended occurs⟩
      exact List.append_cancel_left same ▸ occurs
  · refine .inl ⟨fun text same => ?_, delimitedUnopened begun opened⟩
    exact absurd ⟨text, same.symm⟩ opened

/-- A block between two texts always answers. It does not match where the opening text does not begin the
input or the closing one does not occur behind it, and else it reads up to the leftmost occurrence, scalar
by scalar, and leaves what follows that. -/
theorem delimitedReadsToLeftmost {opening closing : String} (begun : opening ≠ "")
    (ended : closing ≠ "") (input : Text) :
    let delimited := block Char.toString (literal opening) (literal closing) fail
    (∃ found, delimited.Yields input found) ∧
    (delimited.Yields input none ↔
      ∀ text, input = opening.toList ++ text → ¬ closing.toList <:+: text) ∧
    ∀ o, delimited.Yields input (some o) ↔ ∃ text between, input = opening.toList ++ text ∧
      Leftmost closing.toList text between o.rest ∧
      o.produced = [opening] ++ between.map Char.toString ++ [closing] := by
  intro delimited
  have ends := delimitedEnds begun ended input
  refine ⟨?_, ⟨fun missed text same occurs => ?_, fun absent => ?_⟩, fun o => ⟨fun found => ?_, ?_⟩⟩
  · rcases ends with ⟨-, missed⟩ | ⟨text, between, after, -, -, found⟩
    · exact ⟨none, missed⟩
    · exact ⟨_, found⟩
  · rcases ends with ⟨absent, -⟩ | ⟨_, _, _, -, -, found⟩
    · exact absent text same occurs
    · cases Except.ok.inj (missed.symm.trans found)
  · rcases ends with ⟨-, missed⟩ | ⟨text, between, after, same, leftmost, -⟩
    · exact missed
    · exact absurd (Text.leftmostInfix leftmost) (absent text same)
  · rcases ends with ⟨-, missed⟩ | ⟨text, between, after, same, leftmost, yields⟩
    · cases Except.ok.inj (missed.symm.trans found)
    · cases Except.ok.inj (yields.symm.trans found)
      exact ⟨text, between, same, leftmost, rfl⟩
  · rintro ⟨text, between, rfl, leftmost, made⟩
    obtain ⟨rest, produced⟩ := o
    dsimp only at leftmost made
    subst made
    exact delimitedClosed begun ended leftmost

theorem delimitedReadsOverlaps :
    "<!--" ≠ "" ∧ "-->" ≠ "" ∧
      (block Char.toString (literal "<!--") (literal "-->") fail).Yields "<!--->é--->b".toList
        (some ⟨['b'], ["<!--", "-", ">", "é", "-", "-->"]⟩) := by
  have begun : "<!--" ≠ "" := by decide
  have ended : "-->" ≠ "" := by decide
  obtain ⟨-, -, matched⟩ := delimitedReadsToLeftmost begun ended "<!--->é--->b".toList
  have here : Leftmost "-->".toList "--->b".toList ['-'] ['b'] :=
    Text.leftmostLater (by decide) ⟨rfl, fun _ => Nat.zero_le _⟩
  have later : Leftmost "-->".toList "->é--->b".toList ['-', '>', 'é', '-'] ['b'] :=
    Text.leftmostLater (by decide) (Text.leftmostLater (by decide)
      (Text.leftmostLater (by decide) here))
  exact ⟨begun, ended, (matched _).mpr ⟨_, _, rfl, later, rfl⟩⟩

end Parser
end Descent
