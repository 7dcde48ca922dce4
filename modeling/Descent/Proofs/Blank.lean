import Descent.Blank
import Descent.Proofs.Numeral
/-!
Blank text is read to its end. The runs of spaces and tabs and the single line endings that it is read in
leave no blank behind that another could not take, and no carriage return is cut off from its line feed.
-/
namespace Descent.Blank
open Descent.Parser (Computes Yields one choice many many1 literal)
open Text (Apart)

def isSpace (c : Char) : Bool := c ∈ [' ', '\t']

def isBlank (c : Char) : Bool :=
  c == ' ' || c == '\t' || c == '\n' || c == '\r'

theorem isBlankIff {c : Char} :
    isBlank c = true ↔ c = ' ' ∨ c = '\t' ∨ c = '\n' ∨ c = '\r' := by
  simp [isBlank, or_assoc]

theorem blankSpace {c : Char} : isBlank c = true ↔ isSpace c = true ∨ c = '\n' ∨ c = '\r' := by
  simp [isBlank, isSpace, or_assoc]

def pieces : Text → List String
  | '\r' :: '\n' :: rest => "\r\n" :: pieces rest
  | c :: rest => if isBlank c then c.toString :: pieces rest else []
  | [] => []

theorem piecesCons {c : Char} {rest : Text}
    (whole : ∀ others, c = '\r' → rest = '\n' :: others → False) :
    pieces (c :: rest) = if isBlank c then c.toString :: pieces rest else [] := by
  rw [pieces]
  exact whole

theorem piecesPair (rest : Text) : pieces ('\r' :: '\n' :: rest) = "\r\n" :: pieces rest := rfl

theorem piecesStop {t : Text} (stop : Apart isBlank t) : pieces t = [] := by
  cases t with
  | nil => rfl
  | cons c t =>
    have other : isBlank c = false := Text.apartCons.mp stop
    have noReturn : c ≠ '\r' := by
      intro same
      rw [same] at other
      contradiction
    rw [piecesCons fun _ same _ => noReturn same, if_neg (by simp [other])]

theorem piecesBlank {c : Char} {rest : Text} (blank : isBlank c = true)
    (whole : ∀ others, c = '\r' → rest = '\n' :: others → False) :
    pieces (c :: rest) = c.toString :: pieces rest := by
  rw [piecesCons whole, if_pos blank]

theorem piecesSpaces (t : Text) :
    pieces t = (t.takeWhile isSpace).map Char.toString ++ pieces (t.dropWhile isSpace) := by
  induction t with
  | nil => rfl
  | cons c t ih =>
    by_cases space : isSpace c = true
    · have blank : isBlank c = true := blankSpace.mpr (.inl space)
      have noReturn : c ≠ '\r' := by
        intro same
        rw [same] at space
        contradiction
      rw [List.takeWhile_cons_of_pos space, List.dropWhile_cons_of_pos space, List.map_cons,
        List.cons_append, ← ih]
      exact piecesBlank blank fun _ same _ => noReturn same
    · rw [List.takeWhile_cons_of_neg space, List.dropWhile_cons_of_neg space]
      rfl

theorem dropWhileWider {p q : Char → Bool} (wider : ∀ c, p c = true → q c = true) (t : Text) :
    (t.dropWhile p).dropWhile q = t.dropWhile q := by
  induction t with
  | nil => rfl
  | cons c t ih =>
    by_cases taken : p c = true
    · rw [List.dropWhile_cons_of_pos taken, List.dropWhile_cons_of_pos (wider c taken), ih]
    · rw [List.dropWhile_cons_of_neg taken]

theorem spacesComputes : (choice [literal " ", literal "\t"]).Computes
    (one fun c => if isSpace c then some c.toString else none) :=
  Parser.computesEq (Parser.literalsComputes [' ', '\t']) fun _ => by simp [isSpace]

theorem eolMiss {c : Char} {rest : Text} (feed : c ≠ '\n') (carriage : c ≠ '\r') :
    eol.Yields (c :: rest) none := by
  have missed (word : String) (first : Char) (others : Text) (spelled : word.toList = first :: others)
      (other : c ≠ first) : (literal word).Yields (c :: rest) none :=
    Parser.literalMiss (by rw [spelled]; exact if_neg (Ne.symm other))
  exact Parser.choiceLater (missed "\n" '\n' [] rfl feed)
    (Parser.choiceLater (missed "\r\n" '\r' ['\n'] rfl carriage)
      (Parser.choiceLater (missed "\r" '\r' [] rfl carriage) rfl))

theorem eolYields {c : Char} (ends : c = '\n' ∨ c = '\r') (rest : Text) :
    ∃ after piece, eol.Yields (c :: rest) (some ⟨after, [piece]⟩) ∧
      pieces (c :: rest) = piece :: pieces after ∧ after <:+ rest ∧
      after.dropWhile isBlank = rest.dropWhile isBlank := by
  rcases ends with rfl | rfl
  · have here : eol.Yields ('\n' :: rest) (some ⟨rest, ["\n"]⟩) :=
      Parser.choiceHere (Parser.literalHere (by decide) rest)
    have cut : pieces ('\n' :: rest) = "\n" :: pieces rest :=
      piecesBlank rfl fun _ same _ => absurd same (by decide)
    exact ⟨rest, "\n", here, cut, List.suffix_rfl, rfl⟩
  have noFeed : (literal "\n").Yields ('\r' :: rest) none := Parser.literalMiss rfl
  by_cases feed : ∃ others, rest = '\n' :: others
  · obtain ⟨others, rfl⟩ := feed
    have both : eol.Yields ('\r' :: '\n' :: others) (some ⟨others, ["\r\n"]⟩) :=
      Parser.choiceLater noFeed (Parser.choiceHere (Parser.literalHere (by decide) others))
    exact ⟨others, "\r\n", both, rfl, List.suffix_cons _ _, rfl⟩
  · have noPair : (literal "\r\n").Yields ('\r' :: rest) none := by
      rw [Parser.literalNone (by decide)]
      rintro ⟨others, same⟩
      exact feed ⟨others, (List.cons.inj same).2.symm⟩
    have here : eol.Yields ('\r' :: rest) (some ⟨rest, ["\r"]⟩) :=
      Parser.choiceLater noFeed (Parser.choiceLater noPair
        (Parser.choiceHere (Parser.literalHere (by decide) rest)))
    have cut : pieces ('\r' :: rest) = "\r" :: pieces rest :=
      piecesBlank rfl fun others _ same => feed ⟨others, same⟩
    exact ⟨rest, "\r", here, cut, List.suffix_rfl, rfl⟩

theorem spacesMiss {c : Char} {rest : Text} (other : ¬ isSpace c = true) :
    spaces.Yields (c :: rest) none := by
  have missed := spacesComputes (c :: rest)
  simp only [one, if_neg other, Option.map_none] at missed
  exact Parser.sequenceMiss missed

theorem spaceAccepted : (fun c => (if isSpace c then some c.toString else none).isSome) = isSpace := by
  funext c
  cases isSpace c <;> rfl

theorem takenSpaces (t : Text) :
    (t.takeWhile isSpace).filterMap (fun c => if isSpace c then some c.toString else none) =
      (t.takeWhile isSpace).map Char.toString := by
  induction t with
  | nil => rfl
  | cons c t ih =>
    by_cases space : isSpace c = true
    · rw [List.takeWhile_cons_of_pos space, List.map_cons, ← ih, List.filterMap_cons, if_pos space]
    · rw [List.takeWhile_cons_of_neg space]
      rfl

theorem spacesYields {c : Char} (space : isSpace c = true) (rest : Text) :
    spaces.Yields (c :: rest)
      (some ⟨rest.dropWhile isSpace, ((c :: rest).takeWhile isSpace).map Char.toString⟩) := by
  have run := Parser.many1OneComputes spacesComputes (c :: rest)
  simp only [spaceAccepted, takenSpaces] at run
  rw [if_neg (by simp [space]), List.dropWhile_cons_of_pos space] at run
  exact run

theorem pieceMiss {input : Text} (stop : Apart isBlank input) :
    (choice [spaces, eol]).Yields input none := by
  cases input with
  | nil => rfl
  | cons c rest =>
    have other : ¬ isBlank c = true := by simpa using Text.apartCons.mp stop
    rw [blankSpace, not_or, not_or] at other
    exact Parser.choiceLater (spacesMiss other.1)
      (Parser.choiceLater (eolMiss other.2.1 other.2.2) rfl)

theorem pieceYields {c : Char} (blank : isBlank c = true) (rest : Text) :
    ∃ after produced, (choice [spaces, eol]).Yields (c :: rest) (some ⟨after, produced⟩) ∧
      pieces (c :: rest) = produced ++ pieces after ∧ after <:+ rest ∧
      after.dropWhile isBlank = rest.dropWhile isBlank := by
  by_cases space : isSpace c = true
  · have cut := piecesSpaces (c :: rest)
    rw [List.dropWhile_cons_of_pos space] at cut
    have wider : ∀ d, isSpace d = true → isBlank d = true := fun _ taken => blankSpace.mpr (.inl taken)
    exact ⟨_, _, Parser.choiceHere (spacesYields space rest), cut,
      List.dropWhile_suffix _, dropWhileWider wider rest⟩
  · have ends := (blankSpace.mp blank).resolve_left space
    obtain ⟨after, piece, ending, cut, suffix, same⟩ := eolYields ends rest
    exact ⟨after, [piece], Parser.choiceLater (spacesMiss space) (Parser.choiceHere ending), cut,
      suffix, same⟩

theorem piecesYields (input : Text) : (many (choice [spaces, eol])).Yields input
    (some ⟨input.dropWhile isBlank, pieces input⟩) := by
  induction size : input.length using Nat.strongRecOn generalizing input with
  | ind _ ih => ?_
  subst size
  have stopped (stop : Apart isBlank input) : (many (choice [spaces, eol])).Yields input
      (some ⟨input, pieces input⟩) := by
    rw [piecesStop stop]
    exact Parser.manyStop (pieceMiss stop)
  cases input with
  | nil => exact stopped (by simp [Apart])
  | cons c rest =>
    by_cases blank : isBlank c = true
    · obtain ⟨after, produced, piece, cut, suffix, same⟩ := pieceYields blank rest
      have shorter : after.length < (c :: rest).length := Nat.lt_succ_of_le suffix.length_le
      have bytes := Text.byteLengthShorter (suffix.trans (List.suffix_cons c rest)) shorter
      have run := ih after.length shorter after rfl
      rw [same] at run
      rw [List.dropWhile_cons_of_pos blank, cut]
      exact Parser.manyStep piece bytes run
    · rw [List.dropWhile_cons_of_neg blank]
      exact stopped (Text.apartCons.mpr (by simpa using blank))

theorem whitespaceMiss {input : Text} (stop : Apart isBlank input) : whitespace.Yields input none :=
  Parser.sequenceMiss (pieceMiss stop)

theorem whitespaceYields {c : Char} (blank : isBlank c = true) (rest : Text) :
    whitespace.Yields (c :: rest) (some ⟨rest.dropWhile isBlank, pieces (c :: rest)⟩) := by
  obtain ⟨after, produced, piece, cut, -, same⟩ := pieceYields blank rest
  have run := piecesYields after
  rw [same] at run
  have whole := Parser.sequenceStep piece (Parser.sequenceStep run Parser.sequenceNil)
  simp only [Option.map_some, List.append_nil] at whole
  rw [cut]
  exact whole

theorem piecesKinds (t : Text) : ∀ piece ∈ pieces t, piece ∈ [" ", "\t", "\n", "\r", "\r\n"] := by
  induction t using pieces.induct with
  | case1 rest ih =>
    rw [piecesPair, List.forall_mem_cons]
    exact ⟨by simp, ih⟩
  | case2 c rest whole blank ih =>
    rw [piecesBlank blank whole, List.forall_mem_cons]
    refine ⟨?_, ih⟩
    rcases isBlankIff.mp blank with rfl | rfl | rfl | rfl <;> decide
  | case3 c rest _ other =>
    rw [piecesStop (Text.apartCons.mpr (by simpa using other))]
    exact List.forall_mem_nil _
  | case4 => exact List.forall_mem_nil _

theorem piecesJoined (t : Text) : (pieces t).flatMap String.toList = t.takeWhile isBlank := by
  induction t using pieces.induct with
  | case1 rest ih =>
    rw [piecesPair, List.flatMap_cons, ih]
    rfl
  | case2 c rest whole blank ih =>
    rw [piecesBlank blank whole, List.flatMap_cons, ih, List.takeWhile_cons_of_pos blank]
    simp [Char.toString]
  | case3 c rest _ other =>
    rw [piecesStop (Text.apartCons.mpr (by simpa using other)), List.takeWhile_cons_of_neg other]
    rfl
  | case4 => rfl

theorem piecesWhole {t before after : Text} (run : t.takeWhile isBlank = before ++ '\r' :: '\n' :: after) :
    ∃ left right, pieces t = left ++ "\r\n" :: right ∧ left.flatMap String.toList = before ∧
      right.flatMap String.toList = after := by
  induction t using pieces.induct generalizing before with
  | case1 rest ih =>
    have unfolded : '\r' :: '\n' :: rest.takeWhile isBlank = before ++ '\r' :: '\n' :: after := run
    cases before with
    | nil =>
      obtain ⟨-, -, rfl⟩ := by simpa using unfolded
      exact ⟨[], pieces rest, rfl, rfl, piecesJoined rest⟩
    | cons d before =>
      cases before with
      | nil => simp at unfolded
      | cons e before =>
        obtain ⟨rfl, rfl, inside⟩ := by simpa using unfolded
        obtain ⟨left, right, cut, rfl, joined⟩ := ih inside
        exact ⟨"\r\n" :: left, right, by rw [piecesPair, cut, List.cons_append], rfl, joined⟩
  | case2 c rest whole blank ih =>
    rw [List.takeWhile_cons_of_pos blank] at run
    cases before with
    | nil =>
      obtain ⟨rfl, feed⟩ := List.cons.inj run
      obtain ⟨more, splits⟩ := List.takeWhile_prefix isBlank (l := rest)
      rw [feed] at splits
      exact absurd splits.symm (whole (after ++ more) rfl)
    | cons d before =>
      obtain ⟨rfl, inside⟩ := List.cons.inj run
      obtain ⟨left, right, cut, rfl, joined⟩ := ih inside
      refine ⟨c.toString :: left, right, ?_, by simp [Char.toString], joined⟩
      rw [piecesBlank blank whole, cut, List.cons_append]
  | case3 c rest _ other =>
    rw [List.takeWhile_cons_of_neg other] at run
    simp at run
  | case4 => simp at run

theorem piecesFeed {t : Text} (begins : ["\n"] <+: pieces t) : ∃ others, t = '\n' :: others := by
  obtain ⟨more, cut⟩ := begins
  have joined := piecesJoined t
  rw [← cut] at joined
  obtain ⟨behind, splits⟩ := List.takeWhile_prefix isBlank (l := t)
  rw [← joined] at splits
  exact ⟨_, splits.symm⟩

theorem piecesUncut (t : Text) : ¬ ["\r", "\n"] <:+: pieces t := by
  induction t using pieces.induct with
  | case1 rest ih =>
    rw [piecesPair, List.infix_cons_iff, List.cons_prefix_cons]
    rintro (⟨same, -⟩ | inside)
    · exact absurd same (by decide)
    · exact ih inside
  | case2 c rest whole blank ih =>
    rw [piecesBlank blank whole, List.infix_cons_iff, List.cons_prefix_cons]
    rintro (⟨same, begins⟩ | inside)
    · obtain ⟨others, feed⟩ := piecesFeed begins
      have spelled := congrArg String.toList same
      have isReturn : c = '\r' := by simpa [Char.toString, eq_comm] using spelled
      exact whole others isReturn feed
    · exact ih inside
  | case3 c rest _ other =>
    rw [piecesStop (Text.apartCons.mpr (by simpa using other))]
    simp
  | case4 => exact fun inside => List.cons_ne_nil _ _ (List.infix_nil.mp inside)

example : pieces "\r\r\n\n \t\rx".toList = ["\r", "\r\n", "\n", " ", "\t", "\r"] := by decide

/-- Whitespace never stops. It does not match a text that begins with none of the four blanks, and reads all
the blanks that begin any other. Its pieces are the blanks in their order, one by one but for line endings of
a carriage return and a line feed, each of which is one piece wherever it stands. -/
theorem whitespaceReadsTheRun (input : Text) :
    (whitespace.Yields input none ↔ Apart isBlank input) ∧
    (¬ Apart isBlank input → ∃ produced,
      whitespace.Yields input (some ⟨input.dropWhile isBlank, produced⟩) ∧
      (∀ piece ∈ produced, piece ∈ [" ", "\t", "\n", "\r", "\r\n"]) ∧
      produced.flatMap String.toList = input.takeWhile isBlank ∧
      ¬ ["\r", "\n"] <:+: produced ∧
      ∀ before after, input.takeWhile isBlank = before ++ '\r' :: '\n' :: after →
        ∃ left right, produced = left ++ "\r\n" :: right ∧ left.flatMap String.toList = before ∧
          right.flatMap String.toList = after) := by
  cases input with
  | nil =>
    have stop : Apart isBlank [] := by simp [Apart]
    exact ⟨iff_of_true (whitespaceMiss stop) stop, absurd stop⟩
  | cons c rest =>
    by_cases blank : isBlank c = true
    · have run := whitespaceYields blank rest
      have here : ¬ Apart isBlank (c :: rest) := by simp [Text.apartCons, blank]
      rw [List.dropWhile_cons_of_pos blank]
      refine ⟨iff_of_false (fun missed => ?_) here, fun _ => ⟨pieces (c :: rest), run,
        piecesKinds _, piecesJoined _, piecesUncut _, fun _ _ => piecesWhole⟩⟩
      cases Except.ok.inj (missed.symm.trans run)
    · have stop : Apart isBlank (c :: rest) := Text.apartCons.mpr (by simpa using blank)
      exact ⟨iff_of_true (whitespaceMiss stop) stop, absurd stop⟩

theorem whitespaceReadsMixedEndings :
    ¬ Apart isBlank " \r\r\n\n\tx".toList ∧ ∃ produced,
      whitespace.Yields " \r\r\n\n\tx".toList (some ⟨['x'], produced⟩) ∧
      ¬ ["\r", "\n"] <:+: produced ∧ ∃ left right, produced = left ++ "\r\n" :: right ∧
        left.flatMap String.toList = [' ', '\r'] ∧ right.flatMap String.toList = ['\n', '\t'] := by
  have blank : ¬ Apart isBlank " \r\r\n\n\tx".toList := fun stop =>
    absurd (Text.apartCons.mp stop) (by decide)
  obtain ⟨-, reads⟩ := whitespaceReadsTheRun " \r\r\n\n\tx".toList
  obtain ⟨produced, found, -, -, uncut, whole⟩ := reads blank
  exact ⟨blank, produced, found, uncut, whole [' ', '\r'] ['\n', '\t'] rfl⟩

end Descent.Blank
