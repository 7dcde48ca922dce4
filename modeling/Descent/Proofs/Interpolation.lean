import Descent.Proofs.Blank
import Descent.Proofs.Lookup
import Descent.Proofs.Plain
import Descent.Template
/-!
Templates are filled from left to right. At each place there is a placeholder of the longest key that may
stand there, or a scalar that stands for itself. The parser of templates does this for every template and
comes to its end, whatever the keys are.
-/
namespace Descent

namespace Text

theorem afterSuffix {s t rest : Text} (found : after? s t = some rest) : rest <:+ t :=
  ⟨s, (afterSplits found).symm⟩

end Text

namespace Template
open Descent.Parser (Computes Yields choice sequence many map skip succeed atEnd notAhead anyChar literal)

def isPad (c : Char) : Bool := c ∈ [' ', '\t']

def lastValue? (given : List (String × String)) (key : String) : Option String :=
  (given.reverse.find? fun b => b.1 == key).map Prod.snd

def longest? (given : List (String × String)) (t : Text) : Nat → Option (Text × String)
  | 0 => none
  | n + 1 =>
    match lastValue? given (String.ofList (t.take (n + 1))) with
    | some value => some (t.drop (n + 1), value)
    | none => longest? given t n

def spot? (given : List (String × String)) (t : Text) : Option (Text × String) := do
  let inside ← Text.after? "\x7b\x7b".toList t
  let (behind, value) ← longest? given (inside.dropWhile isPad) (inside.dropWhile isPad).length
  let rest ← Text.after? "\x7d\x7d".toList (behind.dropWhile isPad)
  pure (rest, value)

variable {given : List (String × String)} {t rest : Text} {key value : String} {n : Nat}

theorem longestSuffix (found : longest? given t n = some (rest, value)) : rest <:+ t := by
  induction n with
  | zero => contradiction
  | succ n ih =>
    simp only [longest?] at found
    split at found
    · cases found
      exact List.drop_suffix _ _
    · exact ih found

theorem spotSuffix (found : spot? given t = some (rest, value)) :
    ∃ inside, t = '\x7b' :: '\x7b' :: inside ∧ rest <:+ inside := by
  simp only [spot?, Option.bind_eq_bind, Option.bind_eq_some_iff, Option.pure_def, Option.some.injEq,
    Prod.mk.injEq, Prod.exists] at found
  obtain ⟨inside, opens, behind, _, longest, _, closes, rfl, -⟩ := found
  have keyed := (longestSuffix longest).trans (List.dropWhile_suffix isPad)
  have closed := (Text.afterSuffix closes).trans (List.dropWhile_suffix isPad)
  exact ⟨inside, Text.afterSplits opens, closed.trans keyed⟩

theorem spotShrinks (found : spot? given t = some (rest, value)) : rest.length < t.length := by
  obtain ⟨inside, rfl, suffix⟩ := spotSuffix found
  exact Nat.lt_of_le_of_lt suffix.length_le (Nat.lt_add_of_pos_right Nat.zero_lt_two)

def scan (given : List (String × String)) : Text → List String
  | [] => []
  | c :: t =>
    match _found : spot? given (c :: t) with
    | some (rest, value) => value :: scan given rest
    | none => c.toString :: scan given t
termination_by t => t.length
decreasing_by
  · exact spotShrinks _found
  · exact Nat.lt_succ_self _

theorem scanSpot (found : spot? given t = some (rest, value)) :
    scan given t = value :: scan given rest := by
  cases t with
  | nil => exact absurd (spotShrinks found) (Nat.not_lt_zero _)
  | cons c t =>
    rw [scan]
    split
    · rename_i same
      cases found.symm.trans same
      rfl
    · rename_i missed
      cases found.symm.trans missed

theorem scanScalar {c : Char} (missed : spot? given (c :: t) = none) :
    scan given (c :: t) = c.toString :: scan given t := by
  rw [scan]
  split
  · rename_i found
    cases missed.symm.trans found
  · rfl

structure Longest (given : List (String × String)) (t : Text) (n : Nat) (key value : String) : Prop where
  full : key ≠ ""
  bound : lastValue? given key = some value
  begins : key.toList <+: t
  longest (other) (known : (lastValue? given other).isSome) (begins : other.toList <+: t)
    (short : other.toList.length ≤ n) : other.toList.length ≤ key.toList.length

theorem prefixSpelled {other : String} (begins : other.toList <+: t) (size : other.toList.length = n) :
    String.ofList (t.take n) = other := by
  subst size
  rw [← List.prefix_iff_eq_take.mp begins, String.ofList_toList]

theorem longestFound (fits : n ≤ t.length) (found : longest? given t n = some (rest, value)) :
    ∃ key, t = key.toList ++ rest ∧ Longest given t n key value := by
  induction n with
  | zero => contradiction
  | succ n ih =>
    simp only [longest?] at found
    split at found
    · rename_i bound
      cases found
      have size : (t.take (n + 1)).length = n + 1 := List.length_take_of_le fits
      refine ⟨String.ofList (t.take (n + 1)), by simp, ?_, bound, by simpa using List.take_prefix _ t, ?_⟩
      · intro empty
        have none := congrArg (fun key : String => key.toList.length) empty
        simp only [String.toList_ofList, size] at none
        contradiction
      · intro other _ _ short
        simpa only [String.toList_ofList, size] using short
    · rename_i unknown
      obtain ⟨key, splits, longest⟩ := ih (Nat.le_of_succ_le fits) found
      refine ⟨key, splits, longest.full, longest.bound, longest.begins, fun other known begins short => ?_⟩
      rcases Nat.lt_or_eq_of_le short with less | size
      · exact longest.longest other known begins (Nat.le_of_lt_succ less)
      · rw [prefixSpelled begins size] at unknown
        rw [unknown] at known
        contradiction

theorem longestMissed (missed : longest? given t n = none) {other : String} (full : other ≠ "")
    (begins : other.toList <+: t) (short : other.toList.length ≤ n) : lastValue? given other = none := by
  induction n with
  | zero =>
    have empty : other.toList = [] := List.length_eq_zero_iff.mp (Nat.le_zero.mp short)
    exact absurd (String.toList_inj.mp empty) full
  | succ n ih =>
    simp only [longest?] at missed
    split at missed
    · contradiction
    · rename_i unknown
      rcases Nat.lt_or_eq_of_le short with less | size
      · exact ih missed (Nat.le_of_lt_succ less)
      · rwa [prefixSpelled begins size] at unknown

theorem bytesOfPrefixes {other : String} (begins : key.toList <+: t) (begins' : other.toList <+: t)
    (shorter : other.toList.length ≤ key.toList.length) (bytes : key.utf8ByteSize ≤ other.utf8ByteSize) :
    key = other := by
  obtain ⟨more, splits⟩ := List.prefix_of_prefix_length_le begins' begins shorter
  have joined : key = other ++ String.ofList more := by
    rw [← String.toList_inj, String.toList_append, String.toList_ofList, splits]
  have nothing : String.ofList more = "" := by
    rw [joined, String.utf8ByteSize_append] at bytes
    exact String.utf8ByteSize_eq_zero_iff.mp (by omega)
  rw [joined, nothing, String.append_empty]

theorem paddingComputes : padding.Computes fun t => some ⟨t.dropWhile isPad, []⟩ := by
  have pad : (fun c => (if Blank.isSpace c then some c.toString else none).isSome) = isPad :=
    Blank.spaceAccepted
  have spaces := Parser.many1OneComputes Blank.spacesComputes
  simp only [pad] at spaces
  have succeeds : (succeed : Parser String).Computes fun t => some ⟨t, []⟩ := fun _ => rfl
  have either := Parser.choiceComputes spaces (Parser.onlyComputes succeeds)
  refine Parser.computesEq (Parser.mapAllComputes either) fun t => ?_
  by_cases unpadded : t.takeWhile isPad = []
  · have whole := List.takeWhile_append_dropWhile (p := isPad) (l := t)
    rw [unpadded, List.nil_append] at whole
    simp [unpadded, whole]
  · simp [unpadded]

def keyed (t : Text) (b : String × String) : Option (Match String) :=
  if b.1 = "" then none else (Text.after? b.1.toList t).map fun rest => ⟨rest, [b.2]⟩

theorem keyComputes (b : String × String) :
    (map (fun _ => b.2) (literal b.1)).Computes fun t => keyed t b := by
  unfold keyed
  by_cases empty : b.1 = ""
  · have nothing : (literal b.1).Computes fun _ => none := fun _ => by
      simp [Yields, literal, empty, Run.pureEq]
    refine Parser.computesEq (Parser.mapComputes nothing) fun t => ?_
    rw [if_pos empty]
    rfl
  · refine Parser.computesEq (Parser.mapComputes (Parser.wordComputes empty)) fun t => ?_
    rw [if_neg empty]
    cases Text.after? b.1.toList t <;> rfl

theorem keyedMiss {b : String × String} : keyed t b = none ↔ b.1 ≠ "" → ¬ b.1.toList <+: t := by
  unfold keyed
  split
  · simp [*]
  · rename_i full
    rw [← Text.afterPrefix]
    simp [full]

theorem keyedHere (full : key ≠ "") : keyed (key.toList ++ rest) (key, value) = some ⟨rest, [value]⟩ := by
  rw [keyed, if_neg full, Text.afterAppend]
  rfl

theorem boundIff : lastValue? given key = some value ↔ (key, value) ∈ byLength (Table.ofList given) := by
  rw [lastValue?, ← Table.findOfList, Table.findIff (Table.ofListSorted given), byLength,
    List.mem_mergeSort]

theorem byLengthSorted (bindings : Table String) : (byLength bindings).Pairwise fun a b =>
    b.1.utf8ByteSize ≤ a.1.utf8ByteSize := by
  have sorted : (byLength bindings).Pairwise fun a b =>
      decide (b.1.utf8ByteSize ≤ a.1.utf8ByteSize) = true := by
    apply List.pairwise_mergeSort
    · intro a b c first second
      simp only [decide_eq_true_eq] at first second ⊢
      exact Nat.le_trans second first
    · intro a b
      simpa using Nat.le_total _ _
  exact sorted.imp of_decide_eq_true

theorem firstHit {α β : Type} {before : α → α → Prop} {hit : α → Option β} {entries : List α} {a : α}
    {b : β} (sorted : entries.Pairwise before) (inside : a ∈ entries) (here : hit a = some b) :
    ∃ first ∈ entries, entries.findSome? hit = hit first ∧ (hit first).isSome ∧
      (first = a ∨ before first a) := by
  induction entries with
  | nil => contradiction
  | cons first entries ih =>
    obtain ⟨ahead, sorted⟩ := List.pairwise_cons.mp sorted
    cases found : hit first with
    | some c =>
      refine ⟨first, List.mem_cons_self, by rw [List.findSome?_cons, found], found ▸ rfl, ?_⟩
      exact (List.mem_cons.mp inside).imp Eq.symm (ahead a)
    | none =>
      have later : a ∈ entries := by
        rcases List.mem_cons.mp inside with rfl | later
        · cases found.symm.trans here
        · exact later
      obtain ⟨next, among, taken, hits, order⟩ := ih sorted later
      exact ⟨next, List.mem_cons_of_mem _ among, by rw [List.findSome?_cons, found, taken], hits, order⟩

theorem firstIsLongest (longest : Longest given (key.toList ++ rest) n key value)
    (fits : (key.toList ++ rest).length ≤ n) :
    (byLength (Table.ofList given)).findSome? (keyed (key.toList ++ rest)) = some ⟨rest, [value]⟩ := by
  have here : keyed (key.toList ++ rest) (key, value) = some ⟨rest, [value]⟩ := keyedHere longest.full
  obtain ⟨first, among, taken, hits, order⟩ :=
    firstHit (byLengthSorted (Table.ofList given)) (boundIff.mp longest.bound) here
  rcases order with rfl | bytes
  · rw [taken, here]
  · have bound : lastValue? given first.1 = some first.2 := boundIff.mpr among
    have begins : first.1.toList <+: key.toList ++ rest := by
      by_contra apart
      rw [keyedMiss.mpr fun _ => apart] at hits
      contradiction
    have shorter := longest.longest first.1 (bound ▸ rfl) begins (Nat.le_trans begins.length_le fits)
    -- No shorter and no longer, so it is the same key: the table has one value for it.
    obtain rfl := bytesOfPrefixes longest.begins begins shorter bytes
    obtain rfl := Option.some.inj (longest.bound.symm.trans bound)
    rw [taken, here]

theorem keysComputes (given : List (String × String)) : (choice ((byLength (Table.ofList given)).map fun b =>
    map (fun _ => b.2) (literal b.1))).Computes fun t =>
      (longest? given t t.length).map fun found => ⟨found.1, [found.2]⟩ := by
  refine Parser.computesEq (Parser.choiceOfComputes keyComputes) fun t => ?_
  cases found : longest? given t t.length with
  | none =>
    refine List.findSome?_eq_none_iff.mpr fun b inside => keyedMiss.mpr fun full begins => ?_
    have unknown := longestMissed found full begins begins.length_le
    rw [boundIff.mpr inside] at unknown
    contradiction
  | some ending =>
    obtain ⟨rest, value⟩ := ending
    obtain ⟨key, rfl, longest⟩ := longestFound (Nat.le_refl _) found
    exact firstIsLongest longest (Nat.le_refl _)

theorem bracesComputes {braces : String} (full : braces ≠ "") :
    (skip (literal braces) : Parser String).Computes fun t =>
      (Text.after? braces.toList t).map fun rest => ⟨rest, []⟩ :=
  Parser.computesEq (Parser.mapAllComputes (Parser.wordComputes full)) fun t => by
    cases Text.after? braces.toList t <;> rfl

theorem placeholderComputes (given : List (String × String)) :
    (placeholder (Table.ofList given)).Computes fun t =>
      (spot? given t).map fun found => ⟨found.1, [found.2]⟩ := by
  have opens : (skip (literal "\x7b\x7b") : Parser String).Computes _ := bracesComputes (by decide)
  have closes : (skip (literal "\x7d\x7d") : Parser String).Computes _ := bracesComputes (by decide)
  have padded := Parser.sequenceComputes paddingComputes (Parser.lastComputes closes)
  have keys := Parser.sequenceComputes paddingComputes (Parser.sequenceComputes (keysComputes given) padded)
  refine Parser.computesEq (Parser.sequenceComputes opens keys) fun t => ?_
  unfold spot?
  generalize "\x7b\x7b".toList = opening, "\x7d\x7d".toList = closing
  cases Text.after? opening t with
  | none => rfl
  | some inside =>
    dsimp
    cases longest? given (inside.dropWhile isPad) (inside.dropWhile isPad).length with
    | none => rfl
    | some ending =>
      dsimp
      cases Text.after? closing (ending.1.dropWhile isPad) <;> rfl

theorem atEndComputes : (atEnd : Parser String).Computes fun t =>
    if t = [] then some ⟨[], []⟩ else none := by
  intro t
  cases t <;> rfl

def piece? (given : List (String × String)) (t : Text) : Option (Match String) :=
  ((spot? given t).map fun found => ⟨found.1, [found.2]⟩).or (Parser.one (fun c => some c.toString) t)

theorem contentComputes (given : List (String × String)) :
    (Parser.content Char.toString atEnd (placeholder (Table.ofList given))).Computes (piece? given) := by
  have apart : (notAhead atEnd : Parser String).Computes _ := Parser.notAheadComputes atEndComputes
  have scalar := Parser.mapComputes (h := Char.toString) Parser.anyCharComputes
  have plain := Parser.onlyComputes (Parser.sequenceComputes apart (Parser.lastComputes scalar))
  refine Parser.computesEq (Parser.choiceComputes (placeholderComputes given) plain) fun t => ?_
  unfold piece?
  cases t <;> rfl

theorem contentScans (given : List (String × String)) (t : Text) :
    (many (Parser.content Char.toString atEnd (placeholder (Table.ofList given)))).Yields t
      (some ⟨[], scan given t⟩) := by
  induction t using scan.induct given with
  | case1 =>
    rw [scan]
    exact Parser.manyStop (contentComputes given [])
  | case2 c t rest value found ih =>
    have here := contentComputes given (c :: t)
    simp only [piece?, found, Option.map_some] at here
    rw [scanSpot found]
    obtain ⟨inside, splits, suffix⟩ := spotSuffix found
    have ends : rest <:+ c :: t := splits ▸ suffix.trans ⟨['\x7b', '\x7b'], rfl⟩
    exact Parser.manyStep here (Text.byteLengthShorter ends (spotShrinks found)) ih
  | case3 c t missed ih =>
    have here := contentComputes given (c :: t)
    simp only [piece?, missed, Option.map_none, Option.none_or, Parser.one, Option.map_some] at here
    rw [scanScalar missed]
    exact Parser.manyStep here (Text.byteLengthCons c t) ih

theorem templateEnding (given : List (String × String)) (t : Text) :
    (template (Table.ofList given)).Yields t (some ⟨[], scan given t⟩) := by
  have starts : (succeed : Parser String).Yields t (some ⟨t, []⟩) := rfl
  have ends : (sequence [atEnd] : Parser String).Yields [] (some ⟨[], []⟩) := rfl
  have whole := Parser.sequenceStep starts (Parser.sequenceStep (contentScans given t) ends)
  simp only [Option.map_some, List.nil_append, List.append_nil] at whole
  exact whole

theorem paddingPlain : padding.Plain :=
  Parser.plainSkip (.choice (by simp [Blank.spacesPlain, Parser.Plain.succeed]))

theorem placeholderPlain (bindings : Table String) : (placeholder bindings).Plain := by
  have braces (word : String) : (skip (literal word) : Parser String).Plain :=
    Parser.plainSkip (.literal word)
  have keys : (choice ((byLength bindings).map fun b => map (fun _ => b.2) (literal b.1))).Plain :=
    .choice (List.forall_mem_map.mpr fun b _ => Parser.plainMap _ (.literal b.1))
  exact .sequence (by simp [braces, keys, paddingPlain])

theorem templatePlain (bindings : Table String) : (template bindings).Plain := by
  have apart : (notAhead (atEnd : Parser String) : Parser String).Plain := .notAhead .atEnd
  have scalar : (sequence [notAhead (atEnd : Parser String), map Char.toString anyChar]).Plain :=
    .sequence (by simp [apart, Parser.plainMap, Parser.Plain.anyChar])
  have content : (Parser.content Char.toString atEnd (placeholder bindings)).Plain :=
    .choice (by simp [placeholderPlain, scalar])
  exact .sequence (by simp [content, Parser.Plain.succeed, Parser.Plain.many, Parser.Plain.atEnd])

theorem templateRun (given : List (String × String)) (t : Text) :
    template (Table.ofList given) t = pure (some ⟨[], scan given t⟩) := by
  have quiet : (template (Table.ofList given) t).journal = [] := (templatePlain _).quiet t
  have ending : (template (Table.ofList given) t).ending = _ := templateEnding given t
  rw [Run.pureEq, ← quiet, ← ending]

theorem scanUnbound (unbound : ∀ key, lastValue? given key = none) (t : Text) :
    String.join (scan given t) = String.ofList t := by
  have nowhere (t : Text) (n : Nat) : longest? given t n = none := by
    induction n with
    | zero => rfl
    | succ n ih => rw [longest?, unbound, ih]
  have noSpot (t : Text) : spot? given t = none := by
    unfold spot?
    cases Text.after? "\x7b\x7b".toList t with
    | none => rfl
    | some inside => simp [nowhere]
  induction t with
  | nil => simp [scan]
  | cons c t ih =>
    rw [scanScalar (noSpot _), String.join_cons, ih, ← String.toList_inj]
    simp [Char.toString]

theorem fillEnding (given : List (String × String)) (source : Text) :
    (fill source given).ending = .ok (String.join (scan given source)) := by
  unfold fill
  dsimp only
  split
  · rename_i empty
    have unbound (key : String) : lastValue? given key = none := by
      rw [lastValue?, ← Table.findOfList, List.isEmpty_iff.mp empty]
      rfl
    rw [scanUnbound unbound]
    rfl
  · simp only [templateRun, pure_bind]
    rfl

theorem tableOfOrders {other : List (String × String)}
    (same : ∀ key, (other.filter fun b => b.1 == key) = given.filter fun b => b.1 == key) :
    Table.ofList other = Table.ofList given := by
  refine Table.sortedUnique (Table.ofListSorted other) (Table.ofListSorted given) fun key => ?_
  rw [Table.findOfList, Table.findOfList, ← List.getLast?_filter, ← List.getLast?_filter, same]

/-- The parser of templates matches every text to its end, and what it makes of the text is what the
scanner makes of it. Bindings of different keys may stand in any order. -/
theorem fillScans (given : List (String × String)) (source : Text) :
    template (Table.ofList given) source = pure (some ⟨[], scan given source⟩) ∧
    (fill source given).ending = .ok (String.join (scan given source)) ∧
    ∀ other : List (String × String),
      (∀ key, (other.filter fun b => b.1 == key) = given.filter fun b => b.1 == key) →
        fill source other = fill source given := by
  refine ⟨templateRun given source, fillEnding given source, fun other same => ?_⟩
  rw [fill, fill, tableOfOrders same]

theorem fillScansPrefixes :
    let given := [("a", "1"), ("ab", "2"), ("a", "\x7b\x7bab\x7d\x7d")]
    let other := [("ab", "2"), ("a", "1"), ("a", "\x7b\x7bab\x7d\x7d")]
    let source := "\x7b\x7bab\x7d\x7d, \x7b\x7b \ta\x7d\x7d, \x7b\x7babc\x7d\x7d".toList
    fill source other = fill source given ∧
      (fill source given).ending = .ok "2, \x7b\x7bab\x7d\x7d, \x7b\x7babc\x7d\x7d" := by
  intro given other source
  obtain ⟨-, scanned, orders⟩ := fillScans given source
  refine ⟨orders other fun key => ?_, scanned.trans (congrArg Except.ok ?_)⟩
  · by_cases long : "ab" = key
    · subst long
      rfl
    · simp [given, other, List.filter_cons, long]
  · decide +kernel

end Template
end Descent
