import Descent.Numeral
import Descent.Proofs.Outcome
/-!
Whole numbers as functions of the text. The digits at the front of a text are a longest run, of
which a canonical number takes no more than a leading zero. The bound is met step by step, but what
decides is the value of all digits.
-/
namespace Descent

def Text.Apart (p : Char → Bool) (t : Text) : Prop :=
  ∀ c ∈ t.head?, p c = false

namespace Text

variable {p : Char → Bool} {t rest : Text}

theorem apartCons {c : Char} : Apart p (c :: t) ↔ p c = false := by
  simp [Apart]

theorem takeWhileAppend (inside : ∀ c ∈ t, p c = true) (stop : Apart p rest) :
    (t ++ rest).takeWhile p = t := by
  rw [List.takeWhile_append_of_pos inside]
  cases rest with
  | nil => simp
  | cons c rest => simp [apartCons.mp stop]

theorem dropWhileAppend (inside : ∀ c ∈ t, p c = true) (stop : Apart p rest) :
    (t ++ rest).dropWhile p = rest := by
  rw [List.dropWhile_append_of_pos inside]
  cases rest with
  | nil => rfl
  | cons c rest => simp [apartCons.mp stop]

theorem takeWhileInside (p : Char → Bool) (t : Text) : ∀ c ∈ t.takeWhile p, p c = true :=
  List.all_eq_true.mp List.all_takeWhile

theorem dropWhileApart (p : Char → Bool) (t : Text) : Apart p (t.dropWhile p) := by
  induction t with
  | nil => simp [Apart]
  | cons c t ih =>
    by_cases accepted : p c = true
    · rwa [List.dropWhile_cons_of_pos accepted]
    · rw [List.dropWhile_cons_of_neg accepted, apartCons]
      simpa using accepted

end Text

namespace Numeral
open Descent.Parser (Computes one choice sequence many many1 map fold? literal)
open Text (Apart)

def digits (t : Text) : List Nat :=
  t.map fun c => c.toNat - '0'.toNat

def decimal (t : Text) : Nat :=
  valueOf 10 (digits t)

theorem decimalValue (t : Text) : valueOf 10 (digits t) = decimal t := rfl

theorem digitsAppend (t u : Text) : digits (t ++ u) = digits t ++ digits u :=
  List.map_append

theorem digitValueDecimal (c : Char) :
    digitValue? 10 c = if c.isDigit then some (c.toNat - '0'.toNat) else none := by
  by_cases digit : '0' ≤ c ∧ c ≤ '9'
  · have shown : c.isDigit = true := by simpa [Char.isDigit, Char.le_def] using digit
    have small : c.toNat - '0'.toNat < 10 := by
      have high : c.toNat ≤ '9'.toNat := digit.2
      have nine : '9'.toNat = 57 := rfl
      have zero : '0'.toNat = 48 := rfl
      omega
    simp only [digitValue?, if_pos digit, shown, if_true, Option.filter_some, small, decide_true]
  · have shown : c.isDigit = false := by
      simpa [Char.isDigit, Char.le_def, ← Bool.not_eq_true] using digit
    simp only [digitValue?, if_neg digit, shown]
    split
    · simp
    · split <;> simp

theorem digitSmall {base d : Nat} {c : Char} (value : digitValue? base c = some d) : d < base :=
  of_decide_eq_true (Option.filter_eq_some_iff.mp value).2

theorem digitWritten {base v : Nat} {c : Char} (value : digitValue? base c = some v) :
    v < 10 ∧ c = Char.ofNat (48 + v) ∨
      10 ≤ v ∧ (c = Char.ofNat (87 + v) ∨ c = Char.ofNat (55 + v)) := by
  have zero : '0'.toNat = 48 := rfl
  have first : 'a'.toNat = 97 := rfl
  have capital : 'A'.toNat = 65 := rfl
  have spelled {n : Nat} (same : c.toNat = n) : c = Char.ofNat n := same ▸ c.ofNat_toNat.symm
  obtain ⟨found, -⟩ := Option.filter_eq_some_iff.mp value
  split at found
  · rename_i figure
    obtain ⟨low, high⟩ : 48 ≤ c.toNat ∧ c.toNat ≤ 57 := figure
    cases found
    exact .inl ⟨by omega, spelled (by omega)⟩
  -- The letters count from ten, so their codes are counted from ten places before the first of them.
  split at found
  · rename_i letter
    obtain ⟨low, high⟩ : 97 ≤ c.toNat ∧ c.toNat ≤ 122 := letter
    cases found
    exact .inr ⟨Nat.le_add_left _ _, .inl (spelled (by omega))⟩
  split at found
  · rename_i letter
    obtain ⟨low, high⟩ : 65 ≤ c.toNat ∧ c.toNat ≤ 90 := letter
    cases found
    exact .inr ⟨Nat.le_add_left _ _, .inr (spelled (by omega))⟩
  · contradiction

theorem digitValueHex (c : Char) :
    digitValue? 16 c = "0123456789abcdef".toList.idxOf? c.toLower := by
  let figures := "0123456789abcdef".toList
  cases value : digitValue? 16 c with
  | some v =>
    have small := digitSmall value
    have table : ∀ v < 10, some v = figures.idxOf? (Char.ofNat (48 + v)).toLower := by decide
    have letters : ∀ v < 16, 10 ≤ v → some v = figures.idxOf? (Char.ofNat (87 + v)).toLower ∧
        some v = figures.idxOf? (Char.ofNat (55 + v)).toLower := by decide
    rcases digitWritten value with ⟨few, rfl⟩ | ⟨many, rfl | rfl⟩
    · exact table v few
    · exact (letters v small many).1
    · exact (letters v small many).2
  | none =>
    rw [eq_comm, List.idxOf?_eq_none_iff]
    intro inside
    by_cases upper : 65 ≤ c.toNat ∧ c.toNat ≤ 90
    · have capitals : ∀ n < 26, digitValue? 16 (Char.ofNat (65 + n)) = none →
          (Char.ofNat (65 + n)).toLower ∉ figures := by decide
      have same : Char.ofNat (65 + (c.toNat - 65)) = c := by
        rw [Nat.add_sub_cancel' upper.1, Char.ofNat_toNat]
      exact capitals (c.toNat - 65) (by omega) (same.symm ▸ value) (same.symm ▸ inside)
    · have kept : c.toLower = c := dif_neg upper
      have known : ∀ d ∈ figures, (digitValue? 16 d).isSome = true := List.all_eq_true.mp rfl
      have found := known c (kept ▸ inside)
      rw [value] at found
      contradiction

theorem digitOfComputes {f : Char → Option Nat} (written : List (Char × Nat))
    (own : ∀ d ∈ written, f d.1 = some d.2)
    (others : ∀ c v, f c = some v → c ∈ written.map Prod.fst) :
    (digitOf (written.map fun d => (d.1.toString, d.2))).Computes (one f) := by
  have lookup : (digitOf (written.map fun d => (d.1.toString, d.2))).Computes
      (one fun c => (written.find? fun d => d.1 == c).map Prod.snd) := by
    rw [digitOf, List.map_map]
    exact Parser.tableComputes written
  refine Parser.computesEq lookup fun input => ?_
  cases input with
  | nil => rfl
  | cons c rest =>
    have value : (written.find? fun d => d.1 == c).map Prod.snd = f c := by
      cases found : written.find? fun d => d.1 == c with
      | some d =>
        have same : d.1 = c := by simpa using List.find?_some found
        rw [Option.map_some, ← same, own d (List.mem_of_find?_eq_some found)]
      | none =>
        rw [Option.map_none, eq_comm, Option.eq_none_iff_forall_ne_some]
        intro v known
        obtain ⟨d, inside, same⟩ := List.mem_map.mp (others c v known)
        exact List.find?_eq_none.mp found d inside (beq_iff_eq.mpr same)
    simp only [one, value]

theorem digitFigure {base v : Nat} {c : Char} (few : base ≤ 10) (value : digitValue? base c = some v) :
    c ∈ (List.range base).map fun v => Char.ofNat (48 + v) := by
  have small := digitSmall value
  rcases digitWritten value with ⟨-, figure⟩ | ⟨letter, -⟩
  · exact List.mem_map.mpr ⟨v, List.mem_range.mpr small, figure.symm⟩
  · omega

theorem decimalDigitComputes : decimalDigit.Computes (one (digitValue? 10)) :=
  digitOfComputes [('0', 0), ('1', 1), ('2', 2), ('3', 3), ('4', 4), ('5', 5), ('6', 6), ('7', 7),
    ('8', 8), ('9', 9)] (by decide) fun _ _ => digitFigure (Nat.le_refl 10)

theorem digitIsSome : (fun c => (digitValue? 10 c).isSome) = Char.isDigit := by
  funext c
  rw [digitValueDecimal]
  split <;> simp_all

theorem filterDigits {t : Text} (inside : ∀ c ∈ t, c.isDigit = true) :
    t.filterMap (digitValue? 10) = digits t := by
  induction t with
  | nil => rfl
  | cons c t ih =>
    rw [List.filterMap_cons, digitValueDecimal, if_pos (inside c List.mem_cons_self),
      ih fun d later => inside d (List.mem_cons_of_mem _ later)]
    rfl

def run (input : Text) : Option (Text × Text) :=
  let taken := input.takeWhile Char.isDigit
  if taken = [] then none else some (taken, input.dropWhile Char.isDigit)

def whole : Text → Option (Text × Text)
  | '0' :: rest => some (['0'], rest)
  | input => run input

inductive Canonical : Text → Prop
  | zero : Canonical ['0']
  | more {c t} (first : c.isDigit = true) (positive : c ≠ '0') (others : ∀ d ∈ t, d.isDigit = true) :
      Canonical (c :: t)

theorem runSome {t rest : Text} (full : t ≠ []) (inside : ∀ c ∈ t, c.isDigit = true)
    (stop : Apart Char.isDigit rest) : run (t ++ rest) = some (t, rest) := by
  rw [run, Text.takeWhileAppend inside stop, Text.dropWhileAppend inside stop]
  exact if_neg full

theorem runNone {input : Text} (stop : Apart Char.isDigit input) : run input = none := by
  have nothing : input.takeWhile Char.isDigit = [] :=
    Text.takeWhileAppend (List.forall_mem_nil _) stop
  rw [run, nothing]
  rfl

theorem runNoneApart {input : Text} (missed : run input = none) : Apart Char.isDigit input := by
  have splits := List.takeWhile_append_dropWhile (p := Char.isDigit) (l := input)
  have stop := Text.dropWhileApart Char.isDigit input
  unfold run at missed
  dsimp only at missed
  split at missed
  · rename_i nothing
    rw [nothing, List.nil_append] at splits
    rwa [splits] at stop
  · contradiction

theorem runSplits {input t rest : Text} (found : run input = some (t, rest)) :
    input = t ++ rest ∧ t ≠ [] ∧ (∀ c ∈ t, c.isDigit = true) ∧ Apart Char.isDigit rest := by
  unfold run at found
  dsimp only at found
  split at found
  · contradiction
  · rename_i full
    obtain ⟨rfl, rfl⟩ := Prod.mk.inj (Option.some.inj found)
    exact ⟨List.takeWhile_append_dropWhile.symm, full, Text.takeWhileInside _ _,
      Text.dropWhileApart _ _⟩

theorem canonicalDigit {t : Text} (canonical : Canonical t) : ∀ c ∈ t, c.isDigit = true := by
  cases canonical with
  | zero => exact List.all_eq_true.mp rfl
  | more first _ others => exact List.forall_mem_cons.mpr ⟨first, others⟩

theorem canonicalFull {t : Text} (canonical : Canonical t) : t ≠ [] := by
  cases canonical <;> exact List.cons_ne_nil _ _

theorem wholeCons {c : Char} {t : Text} (positive : c ≠ '0') : whole (c :: t) = run (c :: t) := by
  unfold whole
  split
  · simp_all
  · rfl

theorem wholeSome {t rest : Text} (canonical : Canonical t) (stop : Apart Char.isDigit rest) :
    whole (t ++ rest) = some (t, rest) := by
  cases canonical with
  | zero => rfl
  | more first positive others =>
    rw [List.cons_append, wholeCons positive]
    exact runSome (List.cons_ne_nil _ _) (List.forall_mem_cons.mpr ⟨first, others⟩) stop

theorem wholeNone {input : Text} (stop : Apart Char.isDigit input) : whole input = none := by
  unfold whole
  split
  · exact absurd (Text.apartCons.mp stop) (by decide)
  · exact runNone stop

theorem wholeSplits {input t rest : Text} (found : whole input = some (t, rest)) :
    input = t ++ rest ∧ Canonical t := by
  unfold whole at found
  split at found
  · obtain ⟨rfl, rfl⟩ := Prod.mk.inj (Option.some.inj found)
    exact ⟨rfl, .zero⟩
  · rename_i other
    obtain ⟨splits, full, inside, -⟩ := runSplits found
    refine ⟨splits, ?_⟩
    cases t with
    | nil => exact absurd rfl full
    | cons c t =>
      obtain ⟨first, others⟩ := List.forall_mem_cons.mp inside
      refine .more first ?_ others
      rintro rfl
      exact other _ splits

theorem wholeNoneApart {input : Text} (missed : whole input = none) : Apart Char.isDigit input := by
  cases input with
  | nil => simp [Apart]
  | cons c rest =>
    by_cases zero : c = '0'
    · subst zero
      contradiction
    · rw [wholeCons zero] at missed
      rw [Text.apartCons, ← Bool.not_eq_true]
      intro digit
      simp [run, digit] at missed

theorem manyDigitsComputes : (many decimalDigit).Computes fun input =>
    some ⟨input.dropWhile Char.isDigit, digits (input.takeWhile Char.isDigit)⟩ :=
  Parser.computesEq (Parser.manyOneComputes decimalDigitComputes) fun input => by
    rw [digitIsSome, filterDigits (Text.takeWhileInside _ _)]

theorem many1DigitsComputes : (many1 decimalDigit).Computes fun input =>
    (run input).map fun found => ⟨found.2, digits found.1⟩ :=
  Parser.computesEq (Parser.many1OneComputes decimalDigitComputes) fun input => by
    simp only [digitIsSome, filterDigits (Text.takeWhileInside _ _), run]
    split <;> rfl

theorem canonicalDigitsComputes : canonicalDigits.Computes fun input =>
    (whole input).map fun found => ⟨found.2, digits found.1⟩ := by
  have positive : (digitOf (decimals.drop 1)).Computes
      (one fun c => if c = '0' then none else digitValue? 10 c) := by
    refine digitOfComputes [('1', 1), ('2', 2), ('3', 3), ('4', 4), ('5', 5), ('6', 6), ('7', 7),
      ('8', 8), ('9', 9)] (by decide) fun c v value => ?_
    obtain ⟨first, value⟩ := Option.ite_none_left_eq_some.mp value
    exact (List.mem_cons.mp (digitFigure (Nat.le_refl 10) value)).resolve_left first
  have zero : (digitOf (decimals.take 1)).Computes (one fun c => if c = '0' then some 0 else none) :=
    digitOfComputes [('0', 0)] (by decide) fun c v value =>
      List.mem_singleton.mpr (Option.ite_none_right_eq_some.mp value).1
  refine Parser.computesEq (Parser.choiceComputes
    (Parser.sequenceComputes positive (Parser.sequenceComputes manyDigitsComputes
      fun _ => Parser.sequenceNil))
    (Parser.choiceComputes zero fun _ => rfl)) fun input => ?_
  cases input with
  | nil => rfl
  | cons c rest =>
    by_cases first : c = '0'
    · subst first
      rfl
    · rw [wholeCons first, run, one, one, digitValueDecimal]
      by_cases digit : c.isDigit <;> simp [first, digit, digits]

theorem valueFrom {base : Nat} (positive : 0 < base) (ds : List Nat) (start : Nat) :
    start ≤ ds.foldl (fun value d => value * base + d) start := by
  induction ds generalizing start with
  | nil => exact Nat.le_refl _
  | cons d ds ih =>
    have grows : start ≤ start * base + d :=
      Nat.le_trans (Nat.le_mul_of_pos_right start positive) (Nat.le_add_right _ _)
    exact Nat.le_trans grows (ih _)

theorem valueBelow {base : Nat} {t : Text} {ds : List Nat}
    (values : t.mapM (digitValue? base) = some ds) (start : Nat) :
    ds.foldl (fun value d => value * base + d) start < (start + 1) * Nat.pow base t.length := by
  induction t generalizing ds start with
  | nil =>
    cases values
    simp
  | cons c t ih =>
    rw [List.mapM_cons] at values
    obtain ⟨d, first, values⟩ := Option.bind_eq_some_iff.mp values
    obtain ⟨others, later, same⟩ := Option.bind_eq_some_iff.mp values
    cases same
    have step : start * base + d + 1 ≤ (start + 1) * base := by
      have small := digitSmall first
      rw [Nat.add_mul]
      omega
    calc others.foldl (fun value d => value * base + d) (start * base + d)
        < (start * base + d + 1) * Nat.pow base t.length := ih later _
      _ ≤ (start + 1) * base * Nat.pow base t.length := Nat.mul_le_mul_right _ step
      _ = (start + 1) * Nat.pow base (t.length + 1) := by
        rw [Nat.mul_assoc, Nat.mul_comm base]
        rfl

theorem placeChecked (base bound digit value : Nat) :
    place base bound digit value = checked bound (value * base + digit) := by
  by_cases shifted : value * base < bound
  · rw [place, checked, if_pos shifted]
    rfl
  · rw [place, checked, if_neg shifted, checked, if_neg (by omega)]
    rfl

theorem placesValue {base bound : Nat} (positive : 0 < base) (ds : List Nat) {start : Nat}
    (below : start < bound) :
    ds.foldlM (fun value d => place base bound d value) start =
      if ds.foldl (fun value d => value * base + d) start < bound then
        some (ds.foldl (fun value d => value * base + d) start) else none := by
  induction ds generalizing start with
  | nil => simp [below]
  | cons d ds ih =>
    have step : List.foldlM (fun value d => place base bound d value) start (d :: ds) =
        (place base bound d start).bind fun next =>
          List.foldlM (fun value d => place base bound d value) next ds := rfl
    rw [step, List.foldl_cons, placeChecked, checked]
    by_cases next : start * base + d < bound
    · rw [if_pos next, Option.bind_some, ih next]
    · -- The value only grows, so the bound that is missed here is missed at the end.
      have above := valueFrom positive ds (start * base + d)
      rw [if_neg next, if_neg (by omega)]
      rfl

theorem placesBounded {base bound : Nat} (positive : 0 < base) (room : 0 < bound) (ds : List Nat) :
    ds.foldlM (fun value d => place base bound d value) 0 =
      if valueOf base ds < bound then some (valueOf base ds) else none :=
  placesValue positive ds room

theorem boundedComputes {base bound : Nat} {p : Parser Nat} {f : Text → Option (Match Nat)}
    (positive : 0 < base) (room : 0 < bound) (part : p.Computes f) :
    (bounded base bound p).Computes fun input => (f input).bind fun m =>
      if valueOf base m.produced < bound then some ⟨m.rest, [valueOf base m.produced]⟩
      else none := by
  refine Parser.computesEq (Parser.mapAllComputes? part) fun input => ?_
  cases f input with
  | none => rfl
  | some m =>
    simp only [Option.bind_some, placesBounded positive room m.produced]
    by_cases fits : valueOf base m.produced < bound
    · rw [if_pos fits, if_pos fits]
      rfl
    · rw [if_neg fits, if_neg fits]
      rfl

theorem intComputes : int.Computes fun input => (whole input).bind fun found =>
    if decimal found.1 < wordBound then some ⟨found.2, [UInt64.ofNat (decimal found.1)]⟩
    else none := by
  refine Parser.computesEq (Parser.mapComputes (boundedComputes (by decide) (by decide)
    canonicalDigitsComputes)) fun input => ?_
  cases whole input with
  | none => rfl
  | some found =>
    simp only [Option.map_some, Option.bind_some]
    rw [decimalValue]
    split <;> rfl

theorem valueAppend (base : Nat) (ds : List Nat) (d : Nat) :
    valueOf base (ds ++ [d]) = valueOf base ds * base + d := by
  simp [valueOf]

theorem digitCharValue {base d : Nat} (small : base ≤ 16) (below : d < base) :
    digitValue? base (Nat.digitChar d) = some d := by
  have table : ∀ d < 16, digitValue? 16 (Nat.digitChar d) = some d := by decide
  have digit := table d (Nat.lt_of_lt_of_le below small)
  exact Option.filter_eq_some_iff.mpr ⟨(Option.filter_eq_some_iff.mp digit).1, decide_eq_true below⟩

theorem digitCharDigit {c : Char} (digit : c.isDigit = true) :
    Nat.digitChar (c.toNat - '0'.toNat) = c := by
  have zero : '0'.toNat = 48 := rfl
  have low : 48 ≤ c.toNat ∧ c.toNat ≤ 57 := by
    simpa [Char.isDigit, UInt32.le_iff_toNat_le] using digit
  apply Char.toNat_inj.mp
  rw [Nat.toNat_digitChar_of_lt_ten (by omega)]
  omega

theorem valueToDigits {base : Nat} (two : 1 < base) (small : base ≤ 16) (m : Nat) :
    valueOf base ((Nat.toDigits base m).filterMap (digitValue? base)) = m := by
  induction m using Nat.strongRecOn with
  | ind m ih => ?_
  by_cases below : m < base
  · rw [Nat.toDigits_of_lt_base below]
    simp [digitCharValue small below, valueOf]
  · have above : base ≤ m := Nat.le_of_not_lt below
    have last : m % base < base := Nat.mod_lt m (by omega)
    rw [Nat.toDigits_of_base_le two above, List.filterMap_append, List.filterMap_cons,
      digitCharValue small last, List.filterMap_nil, valueAppend,
      ih (m / base) (Nat.div_lt_self (by omega) two), Nat.mul_comm]
    exact Nat.div_add_mod m base

theorem toDigitsDigit {base : Nat} (two : 1 < base) (small : base ≤ 16) (m : Nat) :
    ∀ c ∈ Nat.toDigits base m, (digitValue? base c).isSome = true := by
  induction m using Nat.strongRecOn with
  | ind m ih => ?_
  have last {d : Nat} (below : d < base) : ∀ c ∈ [Nat.digitChar d], (digitValue? base c).isSome = true := by
    simp [digitCharValue small below]
  by_cases below : m < base
  · rw [Nat.toDigits_of_lt_base below]
    exact last below
  · rw [Nat.toDigits_of_base_le two (Nat.le_of_not_lt below)]
    exact List.forall_mem_append.mpr
      ⟨ih (m / base) (Nat.div_lt_self (by omega) two), last (Nat.mod_lt m (by omega))⟩

theorem decimalToDigits (m : Nat) : decimal (Nat.toDigits 10 m) = m := by
  have inside : ∀ c ∈ Nat.toDigits 10 m, c.isDigit = true := fun c here =>
    Nat.isDigit_of_mem_toDigits (by decide) (by decide) here
  rw [decimal, ← filterDigits inside]
  exact valueToDigits (by decide) (by decide) m

theorem toDigitsHead {m : Nat} (positive : 0 < m) : (Nat.toDigits 10 m).head? ≠ some '0' := by
  induction m using Nat.strongRecOn with
  | ind m ih => ?_
  by_cases small : m < 10
  · rw [Nat.toDigits_of_lt_base small, List.head?_cons, ne_eq, Option.some_inj]
    exact fun zero => Nat.ne_of_gt positive (Nat.digitChar_eq_zero.mp zero)
  · have first := ih (m / 10) (by omega) (by omega)
    rw [Nat.toDigits_of_base_le (by decide) (Nat.le_of_not_lt small)]
    cases written : Nat.toDigits 10 (m / 10) with
    | nil => exact absurd written Nat.toDigits_ne_nil
    | cons c t => rwa [written] at first

theorem canonicalToDigits (m : Nat) : Canonical (Nat.toDigits 10 m) := by
  have inside : ∀ c ∈ Nat.toDigits 10 m, c.isDigit = true := fun c here =>
    Nat.isDigit_of_mem_toDigits (by decide) (by decide) here
  cases m with
  | zero => exact .zero
  | succ m =>
    have first := toDigitsHead (Nat.succ_pos m)
    cases written : Nat.toDigits 10 (m + 1) with
    | nil => exact absurd written Nat.toDigits_ne_nil
    | cons c t =>
      rw [written] at inside first
      obtain ⟨digit, others⟩ := List.forall_mem_cons.mp inside
      exact .more digit (by simpa using first) others

end Numeral
end Descent
