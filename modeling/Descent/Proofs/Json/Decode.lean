import Descent.Json.Grammar
import Descent.Proofs.Json.Written
import Descent.Proofs.SelfReference
/-!
Decoding and the grammar of JSON texts. All that a value reads is a text of the grammar, by the
language of each parser it is built of; and a text of the grammar is read whole, because what comes
behind a value cannot continue it, and the first scalar tells the kinds of values apart.
-/
namespace Descent.Json
open Descent.Parser (Reads Yields Computes choice sequence many map mapAll skip between succeed
  literal unrolled behind)
open Blank (isBlank)
open Quoted (Quotes)
open Number (Spells)
open Text (Apart)

def blankParser : Parser Value :=
  skip (choice [map Value.string Blank.whitespace, succeed])

def markParser (mark : String) : Parser Value :=
  map .string (literal mark)

def separatedParser (item : Parser Value) : Parser Value :=
  choice [sequence [item, many (sequence [skip (markParser ","), item])], blankParser]

def listParser (value : Parser Value) : Parser Value :=
  mapAll (fun items => [.list items])
    (between (markParser "[") (separatedParser value) (markParser "]"))

def memberParser (value : Parser Value) : Parser Value :=
  sequence [between blankParser (map .string Quoted.parser) blankParser, skip (markParser ":"), value]

def objectParser (value : Parser Value) : Parser Value :=
  mapAll (fun values => [.ofMembers (pairs values)])
    (between (markParser "\x7b") (separatedParser (memberParser value)) (markParser "\x7d"))

def coreParsers (value : Parser Value) : List (Parser Value) :=
  [map (fun _ => .bool true) (markParser "true"), map (fun _ => .bool false) (markParser "false"),
    map (fun _ => .null) (markParser "null"), Number.parser, map .string Quoted.parser,
    listParser value, objectParser value]

def valueParser (value : Parser Value) : Parser Value :=
  between blankParser (choice (coreParsers value)) blankParser

theorem valueUnrolled (input : Text) :
    value.parser input = unrolled valueParser (input.length + 2) input :=
  Store.parserUnrolled valueParser id (fun _ => rfl) (fun _ => rfl) List.mem_cons_self input

theorem blankComputes : blankParser.Computes fun input => some ⟨input.dropWhile isBlank, []⟩ := by
  intro input
  dsimp only
  have silent : (succeed : Parser Value).Yields input (some ⟨input, []⟩) := rfl
  have absent (stop : Apart isBlank input) : blankParser.Yields input (some ⟨input, []⟩) :=
    Parser.skipYields (Parser.choiceLater (Parser.mapYields (Blank.whitespaceMiss stop))
      (Parser.choiceHere silent))
  cases input with
  | nil => exact absent (by simp [Apart])
  | cons c rest =>
    by_cases blank : isBlank c = true
    · have run := Blank.whitespaceYields blank rest
      rw [List.dropWhile_cons_of_pos blank]
      exact Parser.skipYields (Parser.choiceHere (Parser.mapYields run))
    · rw [List.dropWhile_cons_of_neg blank]
      exact absent (Text.apartCons.mpr (by simpa using blank))

theorem markComputes (c : Char) : (skip (markParser c.toString) : Parser Value).Computes
    (behind c fun rest => some ⟨rest, []⟩) :=
  Parser.computesEq (Parser.mapAllComputes (Parser.mapComputes (Parser.literalComputes c)))
    fun input => by
    cases input with
    | nil => rfl
    | cons d rest => by_cases same : c = d <;> simp [Parser.one, behind, same]

variable {stopped : Stop → Prop}

def Says {α : Type} (written : Text → α → Prop) (f : α → List Value) : Language Value :=
  fun w values => ∃ a, written w a ∧ values = f a

theorem saysMono {n : Nat} {p : Parser Value} {narrow wide : Text → Value → Prop}
    (reads : p.Reads stopped n (Says narrow fun v => [v]))
    (wider : ∀ t v, narrow t v → wide t v) :
    p.Reads stopped n (Says wide fun v => [v]) := by
  refine Parser.readsMono reads fun w values said => ?_
  obtain ⟨v, written, same⟩ := said
  exact ⟨v, wider w v written, same⟩

theorem blankReads {n : Nat} : blankParser.Reads stopped n
    fun w values => Blanks w ∧ values = [] :=
  Parser.computesReads blankComputes fun input m found => by
    cases found
    exact ⟨input.takeWhile isBlank, List.takeWhile_append_dropWhile.symm,
      Text.takeWhileInside _ _, rfl⟩

theorem markReads {n : Nat} (mark : String) : (markParser mark).Reads stopped n
    fun w _ => w = mark.toList :=
  Parser.readsMono (Parser.readsMap (Parser.readsLiteral mark)) fun _ _ said => by
    obtain ⟨_, word, -⟩ := said
    exact word.2.1

theorem keywordReads {n : Nat} (word : String) (v : Value) :
    (map (fun _ => v) (markParser word)).Reads stopped n
      fun w values => w = word.toList ∧ values = [v] := by
  refine Parser.readsMono (Parser.readsMap (Parser.readsMap (Parser.readsLiteral word))) ?_
  rintro w values ⟨_, ⟨_, ⟨-, rfl, rfl⟩, ⟨⟩⟩, ⟨⟩⟩
  exact ⟨rfl, rfl⟩

variable {α : Type} {written : Text → α → Prop} {f : α → List Value} {n : Nat}

theorem separatedStar {t u : Text} {a : α} {others : List Value} (first : written t a)
    (rest : Language.Star (fun w values => ∃ t, w = ',' :: t ∧ Says written f t values) u others) :
    ∃ as, Separated written (t ++ u) as ∧ f a ++ others = as.flatMap f := by
  induction rest generalizing t a with
  | done => exact ⟨[a], by rw [List.append_nil]; exact .last first, by simp⟩
  | more item _ ih =>
    obtain ⟨t', rfl, b, next, rfl⟩ := item
    obtain ⟨as, items, same⟩ := ih next
    exact ⟨a :: as, .more first items, by rw [same, List.flatMap_cons]⟩

theorem separatedReads {item : Parser Value} (reads : item.Reads stopped n (Says written f)) :
    (separatedParser item).Reads stopped n fun w values =>
      (∃ as, Separated written w as ∧ values = as.flatMap f) ∨ (Blanks w ∧ values = []) := by
  have comma : (sequence [skip (markParser ","), item]).Reads stopped n
      (fun w values => ∃ t, w = ',' :: t ∧ Says written f t values) := by
    refine Parser.readsMono (Parser.readsSequence (Parser.readsSkip (markReads ","))
      (Language.takesNone _) fun _ => Parser.readsSequence reads (Language.takesNone _)
        fun _ => Parser.readsSequenceNil) ?_
    rintro _ _ ⟨_, _, _, _, rfl, rfl, ⟨rfl, _, rfl⟩, t, _, values, _, rfl, rfl, said, rfl, rfl⟩
    exact ⟨t, by simp, by simpa using said⟩
  have long : Language.Takes 1 (fun w values => ∃ t, w = ',' :: t ∧ Says written f t values) := by
    rintro _ _ ⟨t, rfl, -⟩
    exact Nat.succ_le_succ (Nat.zero_le _)
  have several : (sequence [item, many (sequence [skip (markParser ","), item])]).Reads
      stopped n fun w values => ∃ as, Separated written w as ∧ values = as.flatMap f := by
    refine Parser.readsMono (Parser.readsSequence reads (Language.takesNone _) fun _ =>
      Parser.readsSequence (Parser.readsMany comma (.inr long)) (Language.takesNone _)
        fun _ => Parser.readsSequenceNil) ?_
    rintro _ _ ⟨t, _, _, _, rfl, rfl, ⟨a, first, rfl⟩, u, _, others, _, rfl, rfl, rest, rfl, rfl⟩
    obtain ⟨as, items, same⟩ := separatedStar first rest
    exact ⟨as, by simpa using items, by simpa using same⟩
  apply Parser.readsChoice
  simp only [List.mem_cons, List.not_mem_nil, or_false]
  rintro p (rfl | rfl)
  · exact Parser.readsMono several fun _ _ => .inl
  · exact Parser.readsMono blankReads fun _ _ => .inr

theorem paddedReads {core : Parser Value} (reads : core.Reads stopped n (Says written f)) :
    (between blankParser core blankParser).Reads stopped n (Says (Padded written) f) := by
  refine Parser.readsMono (Parser.readsBetween blankReads (Language.takesNone _) (fun _ => reads)
    blankReads) ?_
  rintro _ _ ⟨before, t, after, rfl, ⟨_, left, -⟩, ⟨a, inner, rfl⟩, _, right, -⟩
  exact ⟨a, .mk left inner right, rfl⟩

theorem stringReads : (map Value.string Quoted.parser).Reads stopped n
    (Says Quotes fun s => [.string s]) := by
  refine Parser.readsMono (Parser.readsMap Quoted.parserReads) ?_
  rintro w values ⟨_, ⟨s, quoted, rfl⟩, ⟨⟩⟩
  exact ⟨s, quoted, rfl⟩

theorem numberReads : Number.parser.Reads stopped n (Says Spells fun v => [v]) :=
  Parser.computesReads Number.parserComputes fun input m found => by
    obtain ⟨w, v, splits, produced, spells⟩ := Number.aheadSpells found
    exact ⟨w, splits, v, spells, produced⟩

def memberValues (member : String × Value) : List Value :=
  [.string member.1, member.2]

theorem pairsMembers (members : List (String × Value)) :
    pairs (members.flatMap memberValues) = members := by
  induction members with
  | nil => rfl
  | cons member members ih => rw [List.flatMap_cons, memberValues]; exact congrArg _ ih

theorem memberReads {value : Parser Value} {inner : Text → Value → Prop}
    (reads : value.Reads stopped n (Says inner fun v => [v])) :
    (memberParser value).Reads stopped n (Says (Member inner) memberValues) := by
  refine Parser.readsMono (Parser.readsSequence (paddedReads stringReads) (Language.takesNone _)
    fun _ => Parser.readsSequence (Parser.readsSkip (markReads ":")) (Language.takesNone _)
      fun _ => Parser.readsSequence reads (Language.takesNone _) fun _ => Parser.readsSequenceNil) ?_
  rintro _ _ ⟨k, _, _, _, rfl, rfl, ⟨key, name, rfl⟩, _, _, _, _, rfl, rfl, ⟨rfl, _, rfl⟩, t, _, _, _,
    rfl, rfl, ⟨v, inside, rfl⟩, rfl, rfl⟩
  refine ⟨(key, v), ?_, rfl⟩
  have whole := Member.mk name inside
  simpa using whole

theorem closedReads {inside : Parser Value} {L : Language Value} (opening closing : Char)
    (reads : 1 ≤ n → inside.Reads stopped (n - 1) L) :
    (between (markParser opening.toString) inside (markParser closing.toString)).Reads
      stopped n fun w values => ∃ t, w = opening :: (t ++ [closing]) ∧ L t values := by
  have one : Language.Takes 1 fun w (_ : List Value) => w = opening.toString.toList := by
    rintro _ _ rfl
    simp [Char.toString]
  refine Parser.readsMono (Parser.readsBetween (markReads opening.toString) one reads
    (markReads closing.toString)) ?_
  rintro _ values ⟨_, t, _, rfl, ⟨_, rfl⟩, word, _, rfl⟩
  exact ⟨t, by simp [Char.toString], word⟩

theorem listReads {value : Parser Value}
    (reads : 1 ≤ n → value.Reads stopped (n - 1) (Says (Written Spells) fun v => [v])) :
    (listParser value).Reads stopped n (Says (Core Spells) fun v => [v]) := by
  refine Parser.readsMono (Parser.readsMapAll (closedReads '[' ']' fun room =>
    separatedReads (reads room))) ?_
  rintro _ _ ⟨_, ⟨t, rfl, ⟨vs, items, rfl⟩ | ⟨blank, rfl⟩⟩, ⟨⟩⟩
  · rw [List.flatMap_singleton']
    exact ⟨.list vs, .list items, rfl⟩
  · exact ⟨.list [], .emptyList blank, rfl⟩

theorem objectReads {value : Parser Value}
    (reads : 1 ≤ n → value.Reads stopped (n - 1) (Says (Written Spells) fun v => [v])) :
    (objectParser value).Reads stopped n (Says (Core Spells) fun v => [v]) := by
  refine Parser.readsMono (Parser.readsMapAll (closedReads '\x7b' '\x7d' fun room =>
    separatedReads (memberReads (reads room)))) ?_
  rintro _ _ ⟨_, ⟨t, rfl, ⟨members, given, rfl⟩ | ⟨blank, rfl⟩⟩, ⟨⟩⟩
  · refine ⟨_, .object given (lastOfIff.mpr rfl), ?_⟩
    dsimp only
    rw [pairsMembers]
    rfl
  · exact ⟨.object [], .emptyObject blank, rfl⟩

theorem valueReads {value : Parser Value}
    (reads : 1 ≤ n → value.Reads stopped (n - 1) (Says (Written Spells) fun v => [v])) :
    (valueParser value).Reads stopped n (Says (Written Spells) fun v => [v]) := by
  have keyword (word : String) (v : Value) (core : Core Spells word.toList v) :
      (map (fun _ => v) (markParser word)).Reads stopped n
        (Says (Core Spells) fun v => [v]) :=
    Parser.readsMono (keywordReads word v) fun _ _ said => ⟨v, said.1 ▸ core, said.2⟩
  apply paddedReads
  apply Parser.readsChoice
  simp only [coreParsers, List.mem_cons, List.not_mem_nil, or_false]
  rintro p (rfl | rfl | rfl | rfl | rfl | rfl | rfl)
  · exact keyword "true" _ .true
  · exact keyword "false" _ .false
  · exact keyword "null" _ .null
  · exact saysMono numberReads fun _ _ => .number
  · refine Parser.readsMono stringReads fun _ _ said => ?_
    obtain ⟨s, quoted, same⟩ := said
    exact ⟨.string s, .string quoted, same⟩
  · exact listReads reads
  · exact objectReads reads

theorem unrolledReads {depth : Nat} (deep : stopped .exhausted ∨ n < depth) :
    (unrolled valueParser depth).Reads stopped n (Says (Written Spells) fun v => [v]) := by
  induction depth generalizing n with
  | zero => exact fun _ _ => deep.resolve_right (Nat.not_lt_zero n)
  | succ depth ih => exact valueReads fun room => ih (deep.imp_right fun enough => by omega)

def beginsNumber (c : Char) : Bool :=
  c.isDigit || c == '-' || c == '.'

def kinds (value : Parser Value) : List ((Char → Bool) × Parser Value) :=
  [(fun c => c == 't', map (fun _ => .bool true) (markParser "true")),
    (fun c => c == 'f', map (fun _ => .bool false) (markParser "false")),
    (fun c => c == 'n', map (fun _ => .null) (markParser "null")), (beginsNumber, Number.parser),
    (fun c => c == '"', map .string Quoted.parser), (fun c => c == '[', listParser value),
    (fun c => c == '\x7b', objectParser value)]

theorem numberApart {c d : Char} (other : beginsNumber d = false) (begins : beginsNumber c = true) :
    (c == d) = false := by
  apply beq_false_of_ne
  rintro rfl
  exact absurd begins (Bool.eq_false_iff.mp other)

theorem kindsApart (value : Parser Value) (c : Char) :
    (kinds value).Pairwise fun one other => one.1 c = true → other.1 c = false := by
  simp only [kinds, List.pairwise_cons, List.forall_mem_cons, List.Pairwise.nil, List.not_mem_nil,
    false_implies, implies_true, and_true]
  and_intros <;> intro begins <;> first
    | exact numberApart rfl begins
    | cases beq_iff_eq.mp begins; rfl

theorem openedMiss {inside closing : Parser Value} {opening c : Char} {rest : Text}
    (other : (c == opening) = false) :
    (between (markParser opening.toString) inside closing).Yields (c :: rest) none := by
  have missed := markComputes opening (c :: rest)
  rw [behind, if_neg (Ne.symm (beq_eq_false_iff_ne.mp other))] at missed
  exact Parser.sequenceMiss missed

theorem stringMiss {c : Char} {rest : Text} (other : (c == '"') = false) :
    (map Value.string Quoted.parser).Yields (c :: rest) none := by
  have missed : (skip (literal "\"") : Parser Char).Yields (c :: rest) _ :=
    Parser.skipLiteralComputes '"' (c :: rest)
  rw [behind, if_neg (Ne.symm (beq_eq_false_iff_ne.mp other))] at missed
  exact Parser.mapYields (Parser.mapAllYields (Parser.sequenceMiss missed))

theorem keywordMiss {word : String} {v : Value} {first : Char} {others : Text}
    (spelled : word.toList = first :: others) {c : Char} {rest : Text} (other : (c == first) = false) :
    (map (fun _ => v) (markParser word)).Yields (c :: rest) none :=
  Parser.mapYields (Parser.mapYields (Parser.literalMiss (by
    rw [spelled]
    exact if_neg (Ne.symm (beq_eq_false_iff_ne.mp other)))))

theorem spellsBegins {w : Text} {v : Value} (spells : Spells w v) :
    ∃ c u, w = c :: u ∧ beginsNumber c = true := by
  obtain ⟨⟨negative, integer, fraction, exponent⟩, rfl, ⟨lenient, -⟩, -⟩ := spells
  cases negative with
  | true => exact ⟨'-', _, rfl, rfl⟩
  | false =>
    rcases lenient.integer with canonical | ⟨rfl, some⟩
    · cases canonical with
      | zero => exact ⟨'0', _, rfl, rfl⟩
      | @more c _ first _ _ => exact ⟨c, _, rfl, by simp [beginsNumber, first]⟩
    · cases fraction with
      | none => exact absurd rfl some
      | some f => exact ⟨'.', _, rfl, rfl⟩

theorem numberMiss {c : Char} {rest : Text} (other : beginsNumber c = false) :
    Number.parser.Yields (c :: rest) none := by
  cases found : Number.ahead (c :: rest) with
  | none => exact found ▸ Number.parserComputes _
  | some m =>
    obtain ⟨w, v, splits, -, spells⟩ := Number.aheadSpells found
    obtain ⟨d, u, rfl, begins⟩ := spellsBegins spells
    obtain rfl := (List.cons.inj splits).1
    exact absurd begins (Bool.eq_false_iff.mp other)

theorem kindsMiss (value : Parser Value) {c : Char} {rest : Text} :
    ∀ kind ∈ kinds value, kind.1 c = false → kind.2.Yields (c :: rest) none := by
  simp only [kinds, List.forall_mem_cons]
  exact ⟨keywordMiss rfl, keywordMiss rfl, keywordMiss rfl, numberMiss, stringMiss,
    fun other => Parser.mapAllYields (openedMiss other),
    fun other => Parser.mapAllYields (openedMiss other), List.forall_mem_nil _⟩

def Follow (rest : Text) : Prop :=
  Apart FloatLiteral.numeric rest ∧ Apart isBlank rest

theorem blankYields {b rest : Text} (blank : Blanks b) (stop : Apart isBlank rest) :
    blankParser.Yields (b ++ rest) (some ⟨rest, []⟩) := by
  have run : blankParser.Yields (b ++ rest) (some ⟨(b ++ rest).dropWhile isBlank, []⟩) :=
    blankComputes _
  rwa [Text.dropWhileAppend blank stop] at run

theorem markYields (c : Char) (rest : Text) :
    (skip (markParser c.toString) : Parser Value).Yields (c :: rest) (some ⟨rest, []⟩) := by
  have run := markComputes c (c :: rest)
  rwa [behind, if_pos rfl] at run

theorem paddedYields {core : Parser Value} {before t after rest : Text} {values : List Value}
    (left : Blanks before) (right : Blanks after) (begins : Apart isBlank (t ++ (after ++ rest)))
    (stop : Apart isBlank rest)
    (inner : core.Yields (t ++ (after ++ rest)) (some ⟨after ++ rest, values⟩)) :
    (between blankParser core blankParser).Yields (before ++ (t ++ after) ++ rest)
      (some ⟨rest, values⟩) := by
  have run : (between blankParser core blankParser).Yields _ _ :=
    Parser.sequenceStep (Parser.skipYields (blankYields left begins))
      (Parser.sequenceStep inner (Parser.sequenceStep (Parser.skipYields (blankYields right stop))
        Parser.sequenceNil))
  simpa using run

theorem closedYields {inside : Parser Value} (opening closing : Char) {t rest : Text}
    {values : List Value}
    (inner : inside.Yields (t ++ closing :: rest) (some ⟨closing :: rest, values⟩)) :
    (between (markParser opening.toString) inside (markParser closing.toString)).Yields
      (opening :: (t ++ [closing]) ++ rest) (some ⟨rest, values⟩) := by
  have run : (between (markParser opening.toString) inside (markParser closing.toString)).Yields _ _ :=
    Parser.sequenceStep (markYields opening _) (Parser.sequenceStep inner
      (Parser.sequenceStep (markYields closing rest) Parser.sequenceNil))
  simpa using run

def Closing (c : Char) : Prop :=
  c = ']' ∨ c = '\x7d'

theorem followClosing {c : Char} (closing : Closing c) (rest : Text) : Follow (c :: rest) := by
  rcases closing with rfl | rfl <;> exact ⟨Text.apartCons.mpr rfl, Text.apartCons.mpr rfl⟩

theorem followComma (rest : Text) : Follow (',' :: rest) :=
  ⟨Text.apartCons.mpr rfl, Text.apartCons.mpr rfl⟩

def ReadsWhole (p : Parser Value) (written : Text → α → Prop) (f : α → List Value) (k : Nat) : Prop :=
  ∀ u a, written u a → u.length ≤ k → ∀ rest, Follow rest → p.Yields (u ++ rest) (some ⟨rest, f a⟩)

section Items

variable {item : Parser Value} {t : Text} {as : List α} {closing : Char}

theorem othersStop (item : Parser Value) (closes : Closing closing) (rest : Text) :
    (many (sequence [skip (markParser ","), item])).Yields (closing :: rest)
      (some ⟨closing :: rest, []⟩) := by
  have missed := markComputes ',' (closing :: rest)
  rw [behind, if_neg (by rcases closes with rfl | rfl <;> decide)] at missed
  exact Parser.manyStop (Parser.sequenceMiss missed)

theorem othersYields (items : Separated written t as) (closes : Closing closing)
    (each : ReadsWhole item written f t.length) (rest : Text) :
    (many (sequence [skip (markParser ","), item])).Yields (',' :: (t ++ closing :: rest))
      (some ⟨closing :: rest, as.flatMap f⟩) := by
  induction items with
  | @last t a only =>
    have here := Parser.sequenceStep (markYields ',' (t ++ closing :: rest))
      (Parser.sequenceStep (each t a only (Nat.le_refl _) _ (followClosing closes rest))
        Parser.sequenceNil)
    have run := Parser.manyStep here (Text.byteLengthBehind (List.cons_ne_nil ',' t) _)
      (othersStop item closes rest)
    simpa using run
  | @more t a u as first items ih =>
    have here := Parser.sequenceStep (markYields ',' (t ++ ',' :: (u ++ closing :: rest)))
      (Parser.sequenceStep (each t a first (by grind) _ (followComma _)) Parser.sequenceNil)
    have later := ih fun w b said short => each w b said (by grind)
    have run := Parser.manyStep here (Text.byteLengthBehind (List.cons_ne_nil ',' t) _) later
    simpa using run

theorem separatedYields (items : Separated written t as) (closes : Closing closing)
    (each : ReadsWhole item written f t.length) (rest : Text) :
    (separatedParser item).Yields (t ++ closing :: rest) (some ⟨closing :: rest, as.flatMap f⟩) := by
  apply Parser.choiceHere
  cases items with
  | @last _ a only =>
    have run := Parser.sequenceStep (each t a only (Nat.le_refl _) _ (followClosing closes rest))
      (Parser.sequenceStep (othersStop item closes rest) Parser.sequenceNil)
    simpa using run
  | @more t a u as first items =>
    have others := othersYields items closes (fun w b said short => each w b said (by grind)) rest
    have run := Parser.sequenceStep (each t a first (by grind) _ (followComma _))
      (Parser.sequenceStep others Parser.sequenceNil)
    simpa using run

theorem emptyYields {b rest : Text} (blank : Blanks b) (closes : Closing closing)
    (missed : item.Yields (b ++ closing :: rest) none) :
    (separatedParser item).Yields (b ++ closing :: rest) (some ⟨closing :: rest, []⟩) :=
  Parser.choiceLater (Parser.sequenceMiss missed)
    (Parser.choiceHere (blankYields blank (followClosing closes rest).2))

end Items

theorem quotedYields {k : Text} {key : String} (name : Padded Quotes k key) (rest : Text) :
    (between blankParser (map Value.string Quoted.parser) blankParser).Yields (k ++ ':' :: rest)
      (some ⟨':' :: rest, [.string key]⟩) := by
  cases name with
  | @mk before t after _ left quoted right =>
    have inner := Parser.mapYields (f := Value.string)
      (Quoted.parserYields quoted (after ++ ':' :: rest))
    obtain ⟨u, cs, rfl, -⟩ := quoted
    exact paddedYields left right (Text.apartCons.mpr rfl) (Text.apartCons.mpr rfl) inner

section Values

variable {value : Parser Value} {inner : Text → Value → Prop} {k : Nat}

theorem memberYields (each : ReadsWhole value inner (fun v => [v]) k) :
    ReadsWhole (memberParser value) (Member inner) memberValues k := by
  rintro _ _ ⟨name, inside⟩ short rest follow
  rename_i key _ u v
  have last := each u v inside (by simp at short; omega) rest follow
  have run : (memberParser value).Yields _ _ := Parser.sequenceStep (quotedYields name (u ++ rest))
    (Parser.sequenceStep (markYields ':' (u ++ rest)) (Parser.sequenceStep last Parser.sequenceNil))
  simpa [memberValues] using run

def MissesClosing (value : Parser Value) : Prop :=
  ∀ b closing rest, Blanks b → Closing closing → value.Yields (b ++ closing :: rest) none

theorem memberMiss (value : Parser Value) : MissesClosing (memberParser value) := by
  intro b closing rest blank closes
  have missed : (map Value.string Quoted.parser).Yields (closing :: rest) none :=
    stringMiss (by rcases closes with rfl | rfl <;> rfl)
  exact Parser.sequenceMiss (Parser.sequenceStep
    (Parser.skipYields (blankYields blank (followClosing closes rest).2)) (Parser.sequenceMiss missed))

theorem valueMiss (value : Parser Value) : MissesClosing (valueParser value) := by
  intro b closing rest blank closes
  have others : ∀ kind ∈ kinds value, kind.1 closing = false := by
    simp only [kinds, List.forall_mem_cons]
    rcases closes with rfl | rfl <;> exact ⟨rfl, rfl, rfl, rfl, rfl, rfl, rfl, List.forall_mem_nil _⟩
  have missed : (choice (coreParsers value)).Yields (closing :: rest) none :=
    Parser.choiceNone fun p inside => by
      obtain ⟨kind, among, rfl⟩ : ∃ kind ∈ kinds value, kind.2 = p := List.mem_map.mp inside
      exact kindsMiss value kind among (others kind among)
  exact Parser.sequenceStep
    (Parser.skipYields (blankYields blank (followClosing closes rest).2)) (Parser.sequenceMiss missed)

theorem kindYields {kind : (Char → Bool) × Parser Value} {c : Char} {u : Text} {m : Match Value}
    (place : Nat) (there : (kinds value)[place]? = some kind) (own : kind.1 c = true)
    (here : kind.2.Yields (c :: u) (some m)) :
    (choice (coreParsers value)).Yields (c :: u) (some m) :=
  Parser.choiceApart (kindsMiss value) (kindsApart value c) (List.mem_of_getElem? there) own here

theorem keywordYields {word : String} {v : Value} (full : word ≠ "") (rest : Text) :
    (map (fun _ => v) (markParser word)).Yields (word.toList ++ rest) (some ⟨rest, [v]⟩) :=
  Parser.mapYields (Parser.mapYields (Parser.literalHere full rest))

theorem numberNoBlank {c : Char} (begins : beginsNumber c = true) : isBlank c = false := by
  rw [← Bool.not_eq_true]
  intro blank
  rcases Blank.isBlankIff.mp blank with rfl | rfl | rfl | rfl <;> contradiction

theorem blankNoNumber {after rest : Text} (blank : Blanks after) (follow : Follow rest) :
    Apart FloatLiteral.numeric (after ++ rest) := by
  cases after with
  | nil => exact follow.1
  | cons c after =>
    have space := blank c List.mem_cons_self
    rcases Blank.isBlankIff.mp space with rfl | rfl | rfl | rfl <;> exact Text.apartCons.mpr rfl

theorem listYields (each : ReadsWhole value (Written Spells) (fun v => [v]) k)
    {t : Text} {vs : List Value} (items : Separated (Written Spells) t vs) (short : t.length ≤ k)
    (rest : Text) : (listParser value).Yields ('[' :: (t ++ [']']) ++ rest)
      (some ⟨rest, [.list vs]⟩) := by
  have inside := separatedYields items (.inl rfl)
    (fun u v said le => each u v said (Nat.le_trans le short)) rest
  rw [List.flatMap_singleton'] at inside
  have run := Parser.mapAllYields (f := fun items => [Value.list items]) (closedYields '[' ']' inside)
  exact run

theorem objectYields (each : ReadsWhole value (Written Spells) (fun v => [v]) k)
    {t : Text} {members : List (String × Value)}
    (given : Separated (Member (Written Spells)) t members) (short : t.length ≤ k) (rest : Text) :
    (objectParser value).Yields ('\x7b' :: (t ++ ['\x7d']) ++ rest)
      (some ⟨rest, [.object (Table.ofList members)]⟩) := by
  have inside := separatedYields given (.inr rfl)
    (fun u member said le => memberYields each u member said (Nat.le_trans le short)) rest
  have run := Parser.mapAllYields (f := fun values => [Value.ofMembers (pairs values)])
    (closedYields '\x7b' '\x7d' inside)
  simp only [Option.map_some, pairsMembers] at run
  exact run

theorem emptyListYields (misses : MissesClosing value) {b : Text} (blank : Blanks b) (rest : Text) :
    (listParser value).Yields ('[' :: (b ++ [']']) ++ rest) (some ⟨rest, [.list []]⟩) := by
  have inside := emptyYields blank (.inl rfl) (misses b ']' rest blank (.inl rfl))
  have run := Parser.mapAllYields (f := fun items => [Value.list items]) (closedYields '[' ']' inside)
  exact run

theorem emptyObjectYields {b : Text} (blank : Blanks b) (rest : Text) :
    (objectParser value).Yields ('\x7b' :: (b ++ ['\x7d']) ++ rest) (some ⟨rest, [.object []]⟩) := by
  have inside := emptyYields blank (.inr rfl) (memberMiss value b '\x7d' rest blank (.inr rfl))
  have run := Parser.mapAllYields (f := fun values => [Value.ofMembers (pairs values)])
    (closedYields '\x7b' '\x7d' inside)
  exact run

theorem coreYields (each : ReadsWhole value (Written Spells) (fun v => [v]) k)
    (misses : MissesClosing value) {t after rest : Text} {v : Value} (core : Core Spells t v)
    (short : t.length ≤ k + 2) (right : Blanks after) (follow : Follow rest) :
    ∃ c u, t = c :: u ∧ isBlank c = false ∧
      (choice (coreParsers value)).Yields (t ++ (after ++ rest)) (some ⟨after ++ rest, [v]⟩) := by
  cases core with
  | true =>
    have here := @keywordYields "true" (.bool true) (by decide) (after ++ rest)
    exact ⟨'t', _, rfl, rfl, kindYields 0 rfl rfl here⟩
  | false =>
    have here := @keywordYields "false" (.bool false) (by decide) (after ++ rest)
    exact ⟨'f', _, rfl, rfl, kindYields 1 rfl rfl here⟩
  | null =>
    have here := @keywordYields "null" .null (by decide) (after ++ rest)
    exact ⟨'n', _, rfl, rfl, kindYields 2 rfl rfl here⟩
  | number spelled =>
    have here : Number.parser.Yields _ _ := Number.parserComputes (t ++ (after ++ rest))
    rw [Number.aheadMatches spelled (blankNoNumber right follow)] at here
    obtain ⟨c, u, rfl, begins⟩ := spellsBegins spelled
    exact ⟨c, u, rfl, numberNoBlank begins, kindYields 3 rfl begins here⟩
  | string quoted =>
    have here := Parser.mapYields (f := Value.string) (Quoted.parserYields quoted (after ++ rest))
    obtain ⟨u, cs, rfl, -⟩ := quoted
    exact ⟨'"', _, rfl, rfl, kindYields 4 rfl rfl here⟩
  | emptyList blank =>
    exact ⟨'[', _, rfl, rfl, kindYields 5 rfl rfl (emptyListYields misses blank _)⟩
  | list items =>
    simp only [List.length_cons, List.length_append, List.length_nil] at short
    exact ⟨'[', _, rfl, rfl, kindYields 5 rfl rfl (listYields each items (by omega) _)⟩
  | emptyObject blank =>
    exact ⟨'\x7b', _, rfl, rfl, kindYields 6 rfl rfl (emptyObjectYields blank _)⟩
  | object given kept =>
    simp only [List.length_cons, List.length_append, List.length_nil] at short
    rw [lastOfIff.mp kept]
    exact ⟨'\x7b', _, rfl, rfl, kindYields 6 rfl rfl (objectYields each given (by omega) _)⟩

theorem valueYields (each : ReadsWhole value (Written Spells) (fun v => [v]) k)
    (misses : MissesClosing value) :
    ReadsWhole (valueParser value) (Written Spells) (fun v => [v]) (k + 2) := by
  rintro _ v ⟨left, core, right⟩ short rest follow
  obtain ⟨c, u, rfl, noBlank, here⟩ := coreYields each misses core
    (by simp only [List.length_append] at short ⊢; omega) right follow
  exact paddedYields left right (Text.apartCons.mpr noBlank) follow.2 here

end Values

theorem coreFull {t : Text} {v : Value} (core : Core Spells t v) : 0 < t.length := by
  cases core with
  | number spelled =>
    obtain ⟨c, u, rfl, -⟩ := spellsBegins spelled
    exact Nat.succ_pos _
  | string quoted =>
    obtain ⟨u, cs, rfl, -⟩ := quoted
    exact Nat.succ_pos _
  | _ => exact Nat.succ_pos _

theorem unrolledYields (depth : Nat) :
    ReadsWhole (unrolled valueParser (depth + 1)) (Written Spells) (fun v => [v]) depth := by
  induction depth with
  | zero =>
    rintro _ v ⟨left, core, right⟩ short
    have full := coreFull core
    simp only [List.length_append] at short
    omega
  | succ depth ih =>
    intro u v written short
    exact valueYields ih (valueMiss (unrolled valueParser depth)) u v written (by omega)

theorem valueParserReads (input : Text) : ∃ found, value.parser.Yields input found ∧
    ∀ m, found = some m → ∃ w, input = w ++ m.rest ∧ Says (Written Spells) (fun v => [v]) w m.produced := by
  have reads := @unrolledReads (fun _ => False) input.length (input.length + 2) (.inr (by omega)) input
    (Nat.le_refl _)
  rw [← valueUnrolled] at reads
  exact Run.endsTotal reads

theorem decodeEnding {input : Text} {found : Option (Match Value)}
    (read : value.parser.Yields input found) : (decode input).ending = match found with
      | none => .ok (.error (.parse .noMatch))
      | some m =>
        if m.rest = [] then .ok (single m.produced)
        else .ok (.error (.parse (.trailingInput (input.byteLength - m.rest.byteLength)
          m.rest.byteLength))) := by
  have whole := parseAllEnding value.parser input
  have ended : (value.parser input).ending = .ok found := read
  rw [ended] at whole
  obtain ⟨found', read', words⟩ := valueParserReads input
  cases Except.ok.inj (read'.symm.trans read)
  cases found with
  | none =>
    rw [decode, Run.endingBind _ whole]
    rfl
  | some m =>
    by_cases nothing : m.rest = []
    · simp only [if_pos nothing] at whole ⊢
      rw [decode, Run.endingBind _ whole]
      rfl
    · obtain ⟨w, splits, -⟩ := words m rfl
      have fits : m.rest.byteLength ≤ input.byteLength := by
        rw [splits, Text.byteLengthAppend]
        exact Nat.le_add_left _ _
      simp only [if_neg nothing, if_pos fits] at whole ⊢
      rw [decode, Run.endingBind _ whole]
      rfl

theorem decodeAccepts {input : Text} {v : Value} (written : Written Spells input v) :
    (decode input).ending = .ok (.ok v) := by
  have whole := unrolledYields (input.length + 1) input v written (Nat.le_succ _) []
    ⟨by simp [Apart], by simp [Apart]⟩
  rw [List.append_nil] at whole
  have read : value.parser.Yields input (some ⟨[], [v]⟩) := by
    rw [Yields, valueUnrolled]
    exact whole
  rw [decodeEnding read]
  rfl

theorem decodeOutcome (input : Text) :
    (∃ v, Written Spells input v ∧ (decode input).ending = .ok (.ok v)) ∨
      ∃ e, (decode input).ending = .ok (.error (.parse e)) := by
  obtain ⟨found, read, words⟩ := valueParserReads input
  have outcome := decodeEnding read
  cases found with
  | none => exact .inr ⟨_, outcome⟩
  | some m =>
    by_cases nothing : m.rest = []
    · obtain ⟨w, splits, v, written, produced⟩ := words m rfl
      rw [nothing, List.append_nil] at splits
      simp only [if_pos nothing, produced] at outcome
      exact .inl ⟨v, splits ▸ written, outcome⟩
    · simp only [if_neg nothing] at outcome
      exact .inr ⟨_, outcome⟩

/-- A text is decoded to a value exactly if the grammar has the text for that value, and every other
text is a parse error: nothing stops the run. -/
theorem decodesTheGrammar (input : Text) :
    (∀ v, (decode input).ending = .ok (.ok v) ↔ Written Spells input v) ∧
      ((∃ v, Written Spells input v) ∨ ∃ e, (decode input).ending = .ok (.error (.parse e))) := by
  refine ⟨fun v => ⟨fun decoded => ?_, decodeAccepts⟩, ?_⟩
  · rcases decodeOutcome input with ⟨w, written, outcome⟩ | ⟨e, outcome⟩
    · cases decoded.symm.trans outcome
      exact written
    · cases decoded.symm.trans outcome
  · rcases decodeOutcome input with ⟨v, written, -⟩ | failed
    · exact .inl ⟨v, written⟩
    · exact .inr failed

end Descent.Json
