import Descent.Proofs.Interpolation
/-!
The placeholder of one key among other keys. What stands between the braces is compared with the keys before
the closing braces are looked for. So a longer key that has one of these, or both, for its own last scalars is
found in place of the shorter key, and then there is no placeholder; other keys do no harm.
-/
namespace Descent.Template
open Text (Apart)

structure Tight (key : String) : Prop where
  full : key ≠ ""
  front : Apart isPad key.toList
  back : ∀ c ∈ key.toList.getLast?, isPad c = false

def placeholderOf (before : Text) (key : String) (behind : Text) : Text :=
  "\x7b\x7b".toList ++ (before ++ (key.toList ++ (behind ++ "\x7d\x7d".toList)))

/-- The key together with the spaces and tabs behind it and one or both of the closing braces is a key. -/
def Blocked (given : List (String × String)) (key : String) (behind : Text) : Prop :=
  ∃ braces ∈ ["\x7d".toList, "\x7d\x7d".toList],
    (lastValue? given (key ++ String.ofList (behind ++ braces))).isSome

variable {given : List (String × String)} {key value : String} {before behind more rest : Text}

theorem tightOfBound (tight : ∀ b ∈ given, Tight b.1) (bound : lastValue? given key = some value) :
    Tight key := by
  obtain ⟨b, found, -⟩ := Option.map_eq_some_iff.mp bound
  have same : b.1 = key := by simpa using List.find?_some found
  exact same ▸ tight b (List.mem_reverse.mp (List.mem_of_find?_eq_some found))

theorem pastPads (pads : ∀ c ∈ behind, isPad c = true) (tight : Tight (key ++ String.ofList more))
    (within : more <+: behind) : more = [] := by
  cases last : more.getLast? with
  | none => exact List.getLast?_eq_none_iff.mp last
  | some c =>
    have ends := tight.back c (by simp [List.getLast?_append, last])
    have pad := pads c (within.subset (List.mem_of_getLast? last))
    rw [pad] at ends
    contradiction

theorem extensions (pads : ∀ c ∈ behind, isPad c = true) (tight : Tight (key ++ String.ofList more))
    (splits : behind ++ "\x7d\x7d".toList = more ++ rest) : more = [] ∨
      more = behind ++ "\x7d".toList ∧ rest = "\x7d".toList ∨
      more = behind ++ "\x7d\x7d".toList ∧ rest = [] := by
  rcases List.append_eq_append_iff.mp splits with ⟨taken, rfl, braces⟩ | ⟨left, rfl, -⟩
  · have spelled : "\x7d\x7d".toList = ['\x7d', '\x7d'] := rfl
    rw [spelled] at braces
    cases taken with
    | nil =>
      rw [List.append_nil] at tight
      simp [pastPads pads tight (List.prefix_refl behind)]
    | cons c taken =>
      cases taken with
      | nil =>
        simp only [List.cons_append, List.nil_append, List.cons.injEq] at braces
        obtain ⟨rfl, rfl⟩ := braces
        exact .inr (.inl ⟨rfl, rfl⟩)
      | cons d taken =>
        simp only [List.cons_append, List.cons.injEq, List.nil_eq, List.append_eq_nil_iff] at braces
        obtain ⟨rfl, rfl, rfl, rfl⟩ := braces
        exact .inr (.inr ⟨rfl, rfl⟩)
  · exact .inl (pastPads pads tight (List.prefix_append more left))

theorem longestAhead (full : key ≠ "") (bound : lastValue? given key = some value) (t : Text) :
    ∃ more rest found, longest? given (key.toList ++ t) (key.toList ++ t).length = some (rest, found) ∧
      t = more ++ rest ∧ lastValue? given (key ++ String.ofList more) = some found ∧
      ∀ other, other <+: t → (lastValue? given (key ++ String.ofList other)).isSome →
        other.length ≤ more.length := by
  have begins := List.prefix_append key.toList t
  have known : (lastValue? given key).isSome := bound ▸ rfl
  cases found : longest? given (key.toList ++ t) (key.toList ++ t).length with
  | none =>
    have unknown := longestMissed found full begins begins.length_le
    rw [bound] at unknown
    contradiction
  | some ending =>
    obtain ⟨rest, last⟩ := ending
    obtain ⟨longer, splits, longest⟩ := longestFound (Nat.le_refl _) found
    have shorter := longest.longest key known begins begins.length_le
    obtain ⟨more, goesOn⟩ := List.prefix_of_prefix_length_le begins longest.begins shorter
    have spelled : longer = key ++ String.ofList more := by
      rw [← String.toList_inj, String.toList_append, String.toList_ofList, goesOn]
    have behind : t = more ++ rest := by
      rw [← goesOn, List.append_assoc] at splits
      exact List.append_cancel_left splits
    refine ⟨more, rest, last, rfl, behind, spelled ▸ longest.bound, fun other within keyed => ?_⟩
    have whole : (key ++ String.ofList other).toList <+: key.toList ++ t := by
      rw [String.toList_append, String.toList_ofList]
      exact (List.prefix_append_right_inj _).mpr within
    have atMost := longest.longest _ keyed whole whole.length_le
    rw [← goesOn] at atMost
    simpa using atMost

theorem spotInside (tight : Tight key) (pads : ∀ c ∈ before, isPad c = true) :
    spot? given (placeholderOf before key behind) =
      let inside := key.toList ++ (behind ++ "\x7d\x7d".toList)
      (longest? given inside inside.length).bind fun found =>
        (Text.after? "\x7d\x7d".toList (found.1.dropWhile isPad)).bind fun rest => some (rest, found.2) := by
  have apart : Apart isPad (key.toList ++ (behind ++ "\x7d\x7d".toList)) := by
    have front := tight.front
    cases spelled : key.toList with
    | nil => exact absurd (String.toList_inj.mp spelled) tight.full
    | cons c others =>
      rw [spelled] at front
      exact front
  unfold spot? placeholderOf
  rw [Text.afterAppend]
  simp only [Option.bind_eq_bind, Option.bind_some, Text.dropWhileAppend pads apart]
  rfl

section

variable (tight : ∀ b ∈ given, Tight b.1) (bound : lastValue? given key = some value)
  (beforePads : ∀ c ∈ before, isPad c = true) (pads : ∀ c ∈ behind, isPad c = true)

include tight bound beforePads pads

theorem spotFilled (free : ¬ Blocked given key behind) :
    spot? given (placeholderOf before key behind) = some ([], value) := by
  have own := tightOfBound tight bound
  obtain ⟨more, rest, found, longest, splits, keyed, -⟩ :=
    longestAhead own.full bound (behind ++ "\x7d\x7d".toList)
  rw [spotInside own beforePads]
  simp only [longest, Option.bind_some]
  rcases extensions pads (tightOfBound tight keyed) splits with rfl | ⟨rfl, -⟩ | ⟨rfl, -⟩
  · have same : key ++ String.ofList [] = key := by simp
    rw [same, bound] at keyed
    cases keyed
    rw [List.nil_append] at splits
    rw [← splits, Text.dropWhileAppend pads (by simp [Apart, isPad])]
    rfl
  · exact absurd ⟨_, List.mem_cons_self, keyed ▸ rfl⟩ free
  · exact absurd ⟨_, List.mem_cons_of_mem _ List.mem_cons_self, keyed ▸ rfl⟩ free

theorem spotBlocked (blocked : Blocked given key behind) :
    spot? given (placeholderOf before key behind) = none := by
  have own := tightOfBound tight bound
  obtain ⟨more, rest, found, longest, splits, keyed, greatest⟩ :=
    longestAhead own.full bound (behind ++ "\x7d\x7d".toList)
  rw [spotInside own beforePads]
  simp only [longest, Option.bind_some]
  rcases extensions pads (tightOfBound tight keyed) splits with rfl | ⟨-, rfl⟩ | ⟨-, rfl⟩
  · obtain ⟨braces, either, known⟩ := blocked
    have within : braces <+: "\x7d\x7d".toList ∧ braces ≠ [] := by
      rcases List.mem_pair.mp either with rfl | rfl <;> decide
    have short := greatest (behind ++ braces) ((List.prefix_append_right_inj _).mpr within.1) known
    simp [within.2] at short
  · rfl
  · rfl

/-- Whatever else is bound to a key without spaces and tabs at its ends: the placeholder of a bound key is
filled with the last value of this key, unless a bound key takes closing braces of the placeholder for its
own; and then no placeholder begins there. -/
theorem placeholderFilled :
    (¬ Blocked given key behind → (fill (placeholderOf before key behind) given).ending = .ok value) ∧
    (Blocked given key behind → spot? given (placeholderOf before key behind) = none) := by
  refine ⟨fun free => ?_, spotBlocked tight bound beforePads pads⟩
  rw [fillEnding, scanSpot (spotFilled tight bound beforePads pads free), scan]
  simp

end

def braceKeys : List (String × String) := [("a", "1"), ("a\x7d", "2")]

theorem braceKeysTight : ∀ b ∈ braceKeys, Tight b.1 := by
  have short : Tight "a" := ⟨by decide, by simp [Apart, isPad], by simp [isPad]⟩
  have long : Tight "a\x7d" := ⟨by decide, by simp [Apart, isPad], by simp [isPad]⟩
  simp [braceKeys, short, long]

theorem placeholderFilledBesideBraces :
    (∀ b ∈ braceKeys, Tight b.1) ∧ lastValue? braceKeys "a" = some "1" ∧
      (fill (placeholderOf [' '] "a" ['\t']) braceKeys).ending = .ok "1" ∧
      spot? braceKeys (placeholderOf [' '] "a" []) = none := by
  have bound : lastValue? braceKeys "a" = some "1" := rfl
  have blank : ∀ c ∈ [' '], isPad c = true := by simp [isPad]
  have free : ¬ Blocked braceKeys "a" ['\t'] := by
    simp [Blocked, lastValue?, braceKeys]
  have blocked : Blocked braceKeys "a" [] := ⟨_, List.mem_cons_self, rfl⟩
  exact ⟨braceKeysTight, bound, (placeholderFilled braceKeysTight bound blank (by simp [isPad])).1 free,
    (placeholderFilled braceKeysTight bound blank (by simp)).2 blocked⟩

theorem braceKeyKeepsThePlaceholder :
    (∀ b ∈ braceKeys, Tight b.1) ∧ lastValue? braceKeys "a" = some "1" ∧
      (fill (placeholderOf [] "a" []) braceKeys).ending = .ok "\x7b\x7ba\x7d\x7d" := by
  refine ⟨braceKeysTight, rfl, (fillEnding braceKeys _).trans (congrArg Except.ok ?_)⟩
  decide +kernel

end Descent.Template
