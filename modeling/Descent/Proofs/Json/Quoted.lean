import Descent.Json.Quoted
import Descent.Proofs.Numeral
/-!
Strings of JSON texts, scalar by scalar. The parser takes all UTF-16 units that follow each other at
once, and looks for pairs only then; that comes to the same as a pair being one spelling of one
scalar.
-/
namespace Descent.Json.Quoted
open Descent.Parser (Computes Reads Yields one behind choice sequence many many1 map mapAll mapAll?
  fold notAhead skip between anyChar literal)
open Numeral (digitValue? valueOf)

def Hex (t : Text) (unit : Nat) : Prop :=
  t.length = 4 ∧ ∃ ds, t.mapM (digitValue? 16) = some ds ∧ valueOf 16 ds = unit

def letters : List (Char × Char) :=
  [('"', '"'), ('\\', '\\'), ('/', '/'), ('b', '\x08'), ('f', '\x0c'), ('n', '\n'), ('r', '\r'),
   ('t', '\t')]

inductive Spelled : Text → Char → Prop
  | plain {c} (printable : 0x20 ≤ c.toNat) (quote : c ≠ '"') (backslash : c ≠ '\\') : Spelled [c] c
  | simple {letter c} (known : (letter, c) ∈ letters) : Spelled ['\\', letter] c
  | unit {t u} (hex : Hex t u) (alone : u < 0xD800 ∨ 0xE000 ≤ u) :
      Spelled ('\\' :: 'u' :: t) (Char.ofNat u)
  | pair {t t' high low} (first : Hex t high) (second : Hex t' low)
      (isHigh : 0xD800 ≤ high ∧ high < 0xDC00) (isLow : 0xDC00 ≤ low ∧ low < 0xE000) :
      Spelled ('\\' :: 'u' :: t ++ '\\' :: 'u' :: t')
        (Char.ofNat (0x10000 + (high - 0xD800) * 0x400 + (low - 0xDC00)))

inductive Content : Text → List Char → Prop
  | done : Content [] []
  | more {t c u cs} (first : Spelled t c) (rest : Content u cs) : Content (t ++ u) (c :: cs)

def Quotes (t : Text) (s : String) : Prop :=
  ∃ u cs, t = '"' :: (u ++ ['"']) ∧ Content u cs ∧ s = String.ofList cs

def hexAhead : Nat → Text → Option (Match Nat)
  | 0, input => some ⟨input, []⟩
  | _ + 1, [] => none
  | n + 1, c :: rest => (digitValue? 16 c).bind fun d =>
    (hexAhead n rest).map fun m => ⟨m.rest, d :: m.produced⟩

theorem hexDigitComputes : hexDigit.Computes (one (digitValue? 16)) :=
  Parser.computesEq (Parser.mapAllComputes? Parser.anyCharComputes) fun input => by
    cases input with
    | nil => rfl
    | cons c rest => cases value : digitValue? 16 c <;> simp [one, hexDigit?, value]

theorem hexComputes (n : Nat) : (sequence (List.replicate n hexDigit)).Computes (hexAhead n) := by
  induction n with
  | zero => exact fun _ => rfl
  | succ n ih =>
    refine Parser.computesEq (Parser.sequenceComputes hexDigitComputes ih) fun input => ?_
    cases input with
    | nil => rfl
    | cons c rest => cases value : digitValue? 16 c <;> simp [one, hexAhead, value]

theorem hexAheadSome {t rest : Text} {ds : List Nat} (values : t.mapM (digitValue? 16) = some ds) :
    hexAhead t.length (t ++ rest) = some ⟨rest, ds⟩ := by
  induction t generalizing ds with
  | nil =>
    cases values
    rfl
  | cons c t ih =>
    rw [List.mapM_cons] at values
    obtain ⟨d, first, values⟩ := Option.bind_eq_some_iff.mp values
    obtain ⟨others, later, same⟩ := Option.bind_eq_some_iff.mp values
    cases same
    rw [List.length_cons, List.cons_append, hexAhead, first, Option.bind_some, ih later]
    rfl

theorem hexAheadSplits {n : Nat} {input : Text} {m : Match Nat} (found : hexAhead n input = some m) :
    ∃ t, input = t ++ m.rest ∧ t.length = n ∧ t.mapM (digitValue? 16) = some m.produced := by
  induction n generalizing input m with
  | zero =>
    cases found
    exact ⟨[], rfl, rfl, rfl⟩
  | succ n ih =>
    cases input with
    | nil => contradiction
    | cons c rest =>
      obtain ⟨d, first, found⟩ := Option.bind_eq_some_iff.mp found
      obtain ⟨o, later, rfl⟩ := Option.map_eq_some_iff.mp found
      obtain ⟨t, splits, length, values⟩ := ih later
      refine ⟨c :: t, by rw [splits, List.cons_append], by rw [List.length_cons, length], ?_⟩
      rw [List.mapM_cons, first, values]
      rfl

def unitAhead (input : Text) : Option (Match Nat) :=
  (Text.after? ['\\', 'u'] input).bind fun digits =>
    (hexAhead 4 digits).map fun m => ⟨m.rest, [valueOf 16 m.produced]⟩

theorem codeUnitComputes : codeUnit.Computes unitAhead := by
  have escape : (skip (literal "\\u") : Parser Nat).Computes fun input =>
      (Text.after? ['\\', 'u'] input).map fun rest => ⟨rest, []⟩ :=
    Parser.computesEq (Parser.mapAllComputes (Parser.wordComputes (by decide))) fun input => by
      cases found : Text.after? ['\\', 'u'] input <;> simp [found]
  refine Parser.computesEq (Parser.sequenceComputes escape (Parser.lastComputes
    (Parser.mapAllComputes (hexComputes 4)))) fun input => ?_
  unfold unitAhead
  cases Text.after? ['\\', 'u'] input with
  | none => rfl
  | some digits => cases found : hexAhead 4 digits <;> simp [found, valueOf]

theorem unitSome {t rest : Text} {u : Nat} (hex : Hex t u) :
    unitAhead ('\\' :: 'u' :: (t ++ rest)) = some ⟨rest, [u]⟩ := by
  obtain ⟨length, ds, values, rfl⟩ := hex
  have escape : Text.after? ['\\', 'u'] ('\\' :: 'u' :: (t ++ rest)) = some (t ++ rest) := rfl
  rw [unitAhead, escape, Option.bind_some, ← length, hexAheadSome values]
  rfl

theorem unitSplits {input : Text} {m : Match Nat} (found : unitAhead input = some m) :
    ∃ t u, input = '\\' :: 'u' :: (t ++ m.rest) ∧ Hex t u ∧ m.produced = [u] := by
  obtain ⟨after, escape, found⟩ := Option.bind_eq_some_iff.mp found
  obtain ⟨o, digits, rfl⟩ := Option.map_eq_some_iff.mp found
  obtain ⟨t, splits, length, values⟩ := hexAheadSplits digits
  refine ⟨t, _, ?_, ⟨length, _, values, rfl⟩, rfl⟩
  rw [Text.afterSplits escape, splits]
  rfl

def unitBound : Nat := 1 <<< 16

def checkedUnit : Parser Nat :=
  sequence [skip (literal "\\u"),
    Numeral.bounded 16 unitBound (sequence (List.replicate 4 hexDigit))]

theorem hexSmall {t : Text} {u : Nat} (hex : Hex t u) : u < unitBound := by
  obtain ⟨length, ds, values, rfl⟩ := hex
  have below := Numeral.valueBelow values 0
  rwa [length] at below

theorem codeUnitChecked : codeUnit = checkedUnit := by
  have digits : (fold (fun digit unit => unit * 16 + digit) 0 (sequence (List.replicate 4 hexDigit))) =
      Numeral.bounded 16 unitBound (sequence (List.replicate 4 hexDigit)) := by
    funext input
    have reads : (sequence (List.replicate 4 hexDigit)).Reads (fun _ => False) input.length
        fun t ds => Hex t (valueOf 16 ds) :=
      Parser.computesReads (hexComputes 4) fun input m found => by
        obtain ⟨t, splits, length, values⟩ := hexAheadSplits found
        exact ⟨t, splits, length, _, values, rfl⟩
    refine Parser.refineAgrees reads (fun m t hex => ?_) (Nat.le_refl _)
    have places := @Numeral.placesBounded 16 unitBound (by decide) (by decide) m.produced
    rw [if_pos (hexSmall hex)] at places
    simp only [places]
    rfl
  rw [codeUnit, digits, checkedUnit]

theorem simpleComputes : simple.Computes (behind '\\' (one fun letter =>
    (letters.find? fun e => e.1 == letter).map Prod.snd)) :=
  Parser.behindComputes '\\' (Parser.tableComputes letters)

theorem forbiddenIff (c : Char) : c ∈ forbidden ↔ c = '"' ∨ c = '\\' ∨ c.toNat < 0x20 := by
  have control : c ∈ (List.range 0x20).map Char.ofNat ↔ c.toNat < 0x20 := by
    rw [List.mem_map]
    constructor
    · have low : ∀ n < 0x20, (Char.ofNat n).toNat < 0x20 := by decide
      rintro ⟨n, small, rfl⟩
      exact low n (List.mem_range.mp small)
    · exact fun small => ⟨c.toNat, List.mem_range.mpr small, Char.ofNat_toNat c⟩
  simp only [forbidden, List.mem_append, control]
  simp [or_assoc]

theorem plainComputes : plain.Computes (one fun c => if c ∈ forbidden then none else some c) := by
  refine Parser.computesEq (Parser.sequenceComputes
    (Parser.notAheadComputes (Parser.literalsComputes forbidden)) (Parser.lastComputes
      Parser.anyCharComputes)) fun input => ?_
  cases input with
  | nil => rfl
  | cons c rest => by_cases stop : c ∈ forbidden <;> simp [one, stop]

variable {stopped : Stop → Prop}

theorem contentAppend {t u : Text} {cs ds : List Char} (first : Content t cs) (rest : Content u ds) :
    Content (t ++ u) (cs ++ ds) := by
  induction first with
  | done => exact rest
  | more spelled _ ih =>
    rw [List.append_assoc, List.cons_append]
    exact .more spelled ih

theorem contentSingle {t : Text} {c : Char} (spelled : Spelled t c) : Content t [c] := by
  have single := Content.more spelled .done
  rwa [List.append_nil] at single

inductive Units : Text → List Nat → Prop
  | done : Units [] []
  | more {t unit u units} (hex : Hex t unit) (rest : Units u units) :
      Units ('\\' :: 'u' :: (t ++ u)) (unit :: units)

theorem unitsStar {w : Text} {units : List Nat} (star : Language.Star
    (fun w us => ∃ t u, w = '\\' :: 'u' :: t ∧ Hex t u ∧ us = [u]) w units) : Units w units := by
  induction star with
  | done => exact .done
  | more first _ ih =>
    obtain ⟨t, u, rfl, hex, rfl⟩ := first
    exact .more hex ih

theorem decodeAlone {unit : Nat} (alone : unit < 0xD800 ∨ 0xE000 ≤ unit) (units : List Nat) :
    decode? (unit :: units) = (decode? units).map (Char.ofNat unit :: ·) := by
  have notHigh : isHighSurrogate unit = false := decide_eq_false (by omega)
  have notLow : isLowSurrogate unit = false := decide_eq_false (by omega)
  cases units <;> simp [decode?, notHigh, notLow]

theorem decodePair {high low : Nat} (isHigh : 0xD800 ≤ high ∧ high < 0xDC00)
    (isLow : 0xDC00 ≤ low ∧ low < 0xE000) (units : List Nat) :
    decode? (high :: low :: units) = (decode? units).map (combine high low :: ·) := by
  have first : isHighSurrogate high = true := decide_eq_true isHigh
  have notLow : isLowSurrogate high = false := decide_eq_false (by omega)
  have second : isLowSurrogate low = true := decide_eq_true isLow
  simp [decode?, first, notLow, second]

theorem unitsContent {w : Text} {units : List Nat} {cs : List Char} (named : Units w units)
    (decoded : decode? units = some cs) : Content w cs := by
  fun_induction decode? units generalizing w cs with
  | case1 =>
    cases named
    cases decoded
    exact .done
  | case2 => contradiction
  | case3 => contradiction
  | case4 high notLow isHigh low rest isLow ih =>
    obtain ⟨ds, later, rfl⟩ := Option.map_eq_some_iff.mp decoded
    cases named with
    | more first named =>
      cases named with
      | more second named =>
        have pair := Spelled.pair first second (of_decide_eq_true isHigh) (of_decide_eq_true isLow)
        simpa [combine] using Content.more pair (ih named later)
  | case5 => contradiction
  | case6 unit units notLow notHigh ih =>
    obtain ⟨ds, later, rfl⟩ := Option.map_eq_some_iff.mp decoded
    cases named with
    | more hex named =>
      have low := of_decide_eq_false (Bool.eq_false_iff.mpr notLow)
      have high := of_decide_eq_false (Bool.eq_false_iff.mpr notHigh)
      exact .more (.unit hex (by omega)) (ih named later)

theorem unicodeReads {n : Nat} : unicode.Reads stopped n
    fun w cs => Content w cs ∧ 1 ≤ w.length := by
  have unit : codeUnit.Reads stopped n
      (fun w us => ∃ t u, w = '\\' :: 'u' :: t ∧ Hex t u ∧ us = [u]) :=
    Parser.computesReads codeUnitComputes fun input m found => by
      obtain ⟨t, u, splits, hex, produced⟩ := unitSplits found
      exact ⟨'\\' :: 'u' :: t, splits, t, u, rfl, hex, produced⟩
  have long : Language.Takes 1
      (fun w us => ∃ t u, w = '\\' :: 'u' :: t ∧ Hex t u ∧ us = [u]) := by
    rintro w us ⟨t, u, rfl, -, -⟩
    exact Nat.succ_le_succ (Nat.zero_le _)
  refine Parser.readsMono (Parser.readsMapAll? (Parser.readsMany1 unit (.inr long))) ?_
  rintro w cs ⟨units, ⟨w₁, w₂, us, us', rfl, rfl, first, others⟩, decoded⟩
  refine ⟨unitsContent (unitsStar (.more first others)) decoded, ?_⟩
  have some := long _ _ first
  rw [List.length_append]
  omega

theorem simpleReads {n : Nat} : simple.Reads stopped n
    fun w cs => Content w cs ∧ 1 ≤ w.length :=
  Parser.computesReads simpleComputes fun input m found => by
    cases input with
    | nil => contradiction
    | cons c rest =>
      rw [behind] at found
      split at found
      · rename_i escape
        cases escape
        cases rest with
        | nil => contradiction
        | cons letter rest =>
          obtain ⟨c, known, rfl⟩ := Option.map_eq_some_iff.mp found
          obtain ⟨entry, inside, rfl⟩ := Option.map_eq_some_iff.mp known
          have named : entry.1 = letter := by simpa using List.find?_some inside
          refine ⟨['\\', letter], rfl, contentSingle (.simple ?_), Nat.le_succ 1⟩
          rw [← named]
          exact List.mem_of_find?_eq_some inside
      · contradiction

theorem plainReads {n : Nat} : plain.Reads stopped n
    fun w cs => Content w cs ∧ 1 ≤ w.length :=
  Parser.computesReads plainComputes fun input m found => by
    cases input with
    | nil => contradiction
    | cons c rest =>
      obtain ⟨d, kept, rfl⟩ := Option.map_eq_some_iff.mp found
      dsimp only at kept
      split at kept
      · contradiction
      · rename_i allowed
        cases kept
        rw [forbiddenIff, not_or, not_or] at allowed
        exact ⟨[c], rfl, contentSingle (.plain (by omega) allowed.1 allowed.2.1), Nat.le_refl _⟩

theorem contentReads {n : Nat} : content.Reads stopped n Content := by
  have pieces : (choice [unicode, simple, plain]).Reads stopped n
      fun w cs => Content w cs ∧ 1 ≤ w.length :=
    Parser.readsChoice (by
      simp only [List.mem_cons, List.not_mem_nil, or_false]
      rintro p (rfl | rfl | rfl)
      · exact unicodeReads
      · exact simpleReads
      · exact plainReads)
  refine Parser.readsMono (Parser.readsMany pieces (.inr fun w cs piece => piece.2)) ?_
  intro w cs star
  induction star with
  | done => exact .done
  | more first _ ih => exact contentAppend first.1 ih

theorem parserReads {n : Nat} : parser.Reads stopped n
    fun w strings => ∃ s, Quotes w s ∧ strings = [s] := by
  have quote := @Parser.readsLiteral stopped n "\""
  refine Parser.readsMono (Parser.readsMapAll (Parser.readsBetween quote (Language.takesNone _)
    (fun _ => contentReads) quote)) ?_
  rintro w strings ⟨cs, ⟨a, u, c, rfl, ⟨_, -, rfl, -⟩, content, ⟨_, -, rfl, -⟩⟩, made⟩
  exact ⟨String.ofList cs, ⟨u, cs, rfl, content, rfl⟩, (Option.some.inj made).symm⟩

theorem unitHere {t : Text} {u : Nat} (hex : Hex t u) (rest : Text) :
    codeUnit.Yields ('\\' :: 'u' :: (t ++ rest)) (some ⟨rest, [u]⟩) := by
  rw [← unitSome hex]
  exact codeUnitComputes _

theorem unitMiss {input : Text} (other : ∀ rest, input = '\\' :: 'u' :: rest → False) :
    codeUnit.Yields input none := by
  have missed : unitAhead input = none := by
    cases found : unitAhead input with
    | none => rfl
    | some m =>
      obtain ⟨t, u, splits, -⟩ := unitSplits found
      exact (other _ splits).elim
  rw [← missed]
  exact codeUnitComputes _

theorem unitShrinks (t rest : Text) :
    rest.byteLength < Text.byteLength ('\\' :: 'u' :: (t ++ rest)) :=
  Text.byteLengthBehind (List.cons_ne_nil '\\' ('u' :: t)) rest

theorem unitsAhead {t : Text} {cs : List Char} (content : Content t cs) (rest : Text) :
    ∃ units cs₁ t₂ cs₂, (many codeUnit).Yields (t ++ '"' :: rest) (some ⟨t₂ ++ '"' :: rest, units⟩) ∧
      decode? units = some cs₁ ∧ cs = cs₁ ++ cs₂ ∧ Content t₂ cs₂ ∧ t₂ <:+ t := by
  induction content with
  | done =>
    exact ⟨[], [], [], [], Parser.manyStop (unitMiss (by simp)), rfl, rfl, .done, List.suffix_rfl⟩
  | @more t c u cs first later ih =>
    obtain ⟨units, cs₁, t₂, cs₂, named, decoded, rfl, behind, suffix⟩ := ih
    cases first with
    | plain printable quote backslash =>
      refine ⟨[], [], [c] ++ u, c :: (cs₁ ++ cs₂), Parser.manyStop (unitMiss ?_), rfl, rfl,
        .more (.plain printable quote backslash) later, List.suffix_rfl⟩
      intro rest same
      exact backslash (List.cons.inj same).1
    | @simple letter _ known =>
      refine ⟨[], [], ['\\', letter] ++ u, c :: (cs₁ ++ cs₂), Parser.manyStop (unitMiss ?_), rfl, rfl,
        .more (.simple known) later, List.suffix_rfl⟩
      intro rest same
      obtain rfl : letter = 'u' := (List.cons.inj (List.cons.inj same).2).1
      simp [letters] at known
    | @unit t unit hex alone =>
      refine ⟨unit :: units, Char.ofNat unit :: cs₁, t₂, cs₂, ?_, ?_, rfl, behind, ?_⟩
      · have here := unitHere hex (u ++ '"' :: rest)
        have next := Parser.manyStep here (unitShrinks _ _) named
        simpa using next
      · rw [decodeAlone alone, decoded]
        rfl
      · exact suffix.trans (List.suffix_append _ u)
    | @pair t t' high low hex hex' isHigh isLow =>
      refine ⟨high :: low :: units, combine high low :: cs₁, t₂, cs₂, ?_, ?_, rfl, behind, ?_⟩
      · have second := Parser.manyStep (unitHere hex' (u ++ '"' :: rest))
          (unitShrinks _ _) named
        have first := Parser.manyStep (unitHere hex _) (unitShrinks _ _) second
        simpa using first
      · rw [decodePair isHigh isLow, decoded]
        rfl
      · exact suffix.trans (List.suffix_append _ u)

theorem unicodeYields {input after : Text} {units units' : List Nat} {cs : List Char}
    (first : codeUnit.Yields input (some ⟨after, units⟩)) {rest : Text}
    (others : (many codeUnit).Yields after (some ⟨rest, units'⟩))
    (decoded : decode? (units ++ units') = some cs) : unicode.Yields input (some ⟨rest, cs⟩) := by
  have named := Parser.sequenceStep first (Parser.sequenceStep others Parser.sequenceNil)
  have matched := Parser.mapAllYields? (f := decode?) named
  simp only [Option.map_some, Option.bind_some, List.append_nil, decoded] at matched
  exact matched

theorem unicodeMiss {input : Text} (other : ∀ rest, input = '\\' :: 'u' :: rest → False) :
    unicode.Yields input none :=
  Parser.mapAllYields? (Parser.sequenceMiss (unitMiss other))

theorem simpleHere {letter c : Char} (known : (letter, c) ∈ letters) (rest : Text) :
    simple.Yields ('\\' :: letter :: rest) (some ⟨rest, [c]⟩) := by
  have distinct : ∀ e ∈ letters, (letters.find? fun other => other.1 == e.1).map Prod.snd =
      some e.2 := by decide
  have ahead := simpleComputes ('\\' :: letter :: rest)
  simp only [behind, one, if_true, distinct (letter, c) known, Option.map_some] at ahead
  exact ahead

theorem simpleMiss {input : Text} (other : ∀ rest, input = '\\' :: rest → False) :
    simple.Yields input none :=
  Parser.behindMiss other ▸ simpleComputes input

theorem plainHere {c : Char} (printable : 0x20 ≤ c.toNat) (quote : c ≠ '"') (backslash : c ≠ '\\')
    (rest : Text) : plain.Yields (c :: rest) (some ⟨rest, [c]⟩) := by
  have allowed : c ∉ forbidden := by
    rw [forbiddenIff]
    rintro (same | same | low)
    · exact quote same
    · exact backslash same
    · omega
  have ahead := plainComputes (c :: rest)
  simp only [one, if_neg allowed, Option.map_some] at ahead
  exact ahead

theorem plainPiece {c : Char} (printable : 0x20 ≤ c.toNat) (quote : c ≠ '"')
    (backslash : c ≠ '\\') (rest : Text) :
    (choice [unicode, simple, plain]).Yields (c :: rest) (some ⟨rest, [c]⟩) := by
  have noEscape (after : Text) (same : c :: rest = '\\' :: after) : False :=
    backslash (List.cons.inj same).1
  exact Parser.choiceLater (unicodeMiss fun after => noEscape ('u' :: after))
    (Parser.choiceLater (simpleMiss noEscape)
      (Parser.choiceHere (plainHere printable quote backslash rest)))

theorem simplePiece {letter c : Char} (known : (letter, c) ∈ letters) (rest : Text) :
    (choice [unicode, simple, plain]).Yields ('\\' :: letter :: rest) (some ⟨rest, [c]⟩) := by
  refine Parser.choiceLater (unicodeMiss fun after same => ?_)
    (Parser.choiceHere (simpleHere known rest))
  obtain rfl : letter = 'u' := (List.cons.inj (List.cons.inj same).2).1
  simp [letters] at known

theorem quoteMiss (rest : Text) : (choice [unicode, simple, plain]).Yields ('"' :: rest) none := by
  have stop : '"' ∈ forbidden := (forbiddenIff '"').mpr (.inl rfl)
  have quote := plainComputes ('"' :: rest)
  simp only [one, if_pos stop, Option.map_none] at quote
  exact Parser.choiceLater (unicodeMiss (by simp)) (Parser.choiceLater (simpleMiss (by simp))
    (Parser.choiceLater quote rfl))

theorem suffixShorter {t u : Text} (suffix : t <:+ u) (rest : Text) :
    Text.byteLength (t ++ rest) ≤ Text.byteLength (u ++ rest) := by
  obtain ⟨used, rfl⟩ := suffix
  simp only [Text.byteLengthAppend]
  omega

theorem contentYields {t rest : Text} {cs : List Char} (spelled : Content t cs) :
    content.Yields (t ++ '"' :: rest) (some ⟨'"' :: rest, cs⟩) := by
  induction size : t.length using Nat.strongRecOn generalizing t cs with
  | ind _ ih => ?_
  subst size
  cases spelled with
  | done => exact Parser.manyStop (quoteMiss rest)
  | @more t c u cs first later =>
    rw [List.append_assoc]
    cases first with
    | plain printable quote backslash =>
      have here := plainPiece printable quote backslash (u ++ '"' :: rest)
      exact Parser.manyStep here (Text.byteLengthCons c _) (ih _ (Nat.lt_succ_self _) later rfl)
    | @simple letter _ known =>
      have here := simplePiece known (u ++ '"' :: rest)
      exact Parser.manyStep here (Text.byteLengthBehind (List.cons_ne_nil '\\' [letter]) _)
        (ih _ (by grind) later rfl)
    | @unit t unit hex alone =>
      obtain ⟨units, cs₁, t₂, cs₂, named, decoded, rfl, behind, suffix⟩ := unitsAhead later rest
      have shorter := suffix.length_le
      have bytes := suffixShorter suffix ('"' :: rest)
      have joined : decode? ([unit] ++ units) = some (Char.ofNat unit :: cs₁) := by
        rw [List.singleton_append, decodeAlone alone, decoded]
        rfl
      have here : (choice [unicode, simple, plain]).Yields _ _ := Parser.choiceHere
        (unicodeYields (unitHere hex _) named joined)
      exact Parser.manyStep here (Nat.lt_of_le_of_lt bytes (unitShrinks t _))
        (ih _ (by grind) behind rfl)
    | @pair t t' high low hex hex' isHigh isLow =>
      obtain ⟨units, cs₁, t₂, cs₂, named, decoded, rfl, behind, suffix⟩ := unitsAhead later rest
      have shorter := suffix.length_le
      have bytes := suffixShorter suffix ('"' :: rest)
      have joined : decode? ([high] ++ ([low] ++ units)) = some (combine high low :: cs₁) := by
        rw [List.singleton_append, List.singleton_append, decodePair isHigh isLow, decoded]
        rfl
      have second := Parser.manyStep (unitHere hex' _) (unitShrinks _ _) named
      have here : (choice [unicode, simple, plain]).Yields _ _ := Parser.choiceHere
        (unicodeYields (unitHere hex _) second joined)
      have step : content.Yields _ _ :=
        Parser.manyStep here (Nat.lt_of_le_of_lt bytes (Nat.lt_trans (unitShrinks t' _) (unitShrinks t _)))
          (ih _ (by grind) behind rfl)
      simpa [combine] using step

theorem parserYields {t : Text} {s : String} (quoted : Quotes t s) (rest : Text) :
    parser.Yields (t ++ rest) (some ⟨rest, [s]⟩) := by
  obtain ⟨u, cs, rfl, spelled, rfl⟩ := quoted
  have quote (after : Text) : (skip (literal "\"") : Parser Char).Yields ('"' :: after)
      (some ⟨after, []⟩) := Parser.skipLiteralComputes '"' _
  have inside := Parser.sequenceStep (quote (u ++ '"' :: rest))
    (Parser.sequenceStep (contentYields spelled) (Parser.sequenceStep (quote rest)
      Parser.sequenceNil))
  have whole : parser.Yields _ _ := Parser.mapAllYields inside
  simpa using whole

end Descent.Json.Quoted
