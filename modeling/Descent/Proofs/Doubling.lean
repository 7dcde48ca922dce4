import Descent.Proofs.Blocks
import Descent.Proofs.Numeral
/-!
Quoted text in which a quote is written twice. The pair of quotes is tried before the one that closes, so
the content is read as it was doubled, whatever run of quotes it has, and each text has one quoted form.
-/
namespace Descent.Doubling
open Descent.Parser (Yields Walk block literal)
open Text (Apart)

def pair (q : Char) : String := String.ofList [q, q]

def doubled (q : Char) (s : Text) : Text :=
  s.flatMap fun c => if c = q then [q, q] else [c]

def piece (q c : Char) : String :=
  if c = q then pair q else c.toString

def undoubled (q : Char) (piece : String) : Text :=
  if piece = pair q then [q] else piece.toList

def quoted (q : Char) : Parser String :=
  block Char.toString (literal q.toString) (literal q.toString) (literal (pair q))

variable {q c : Char} {s t rest last : Text} {pieces : List String}

theorem doubledQuote : doubled q (q :: s) = q :: q :: doubled q s := by
  simp [doubled]

theorem doubledOther (other : c ≠ q) : doubled q (c :: s) = c :: doubled q s := by
  simp [doubled, other]

theorem undoubledPiece (q c : Char) : undoubled q (piece q c) = [c] := by
  by_cases same : c = q
  · simp [piece, undoubled, same]
  · have different : c.toString ≠ pair q := by
      intro spelled
      have lengths := congrArg String.length spelled
      simp [pair, Char.toString] at lengths
    rw [piece, if_neg same, undoubled, if_neg different]
    simp [Char.toString]

theorem undoubledPieces (q : Char) (s : Text) : (s.map (piece q)).flatMap (undoubled q) = s := by
  induction s with
  | nil => rfl
  | cons c s ih => rw [List.map_cons, List.flatMap_cons, undoubledPiece, ih, List.singleton_append]

theorem piecesInjective {u : Text} (same : u.map (piece q) = s.map (piece q)) : u = s := by
  rw [← undoubledPieces q u, same, undoubledPieces]

theorem quoteSpelled (q : Char) : q.toString.toList = [q] := by
  simp [Char.toString]

theorem quoteYields : (literal q.toString).Yields (q :: rest) (some ⟨rest, [q.toString]⟩) := by
  simpa [Parser.one] using Parser.literalComputes q (q :: rest)

theorem quoteMiss (other : c ≠ q) : (literal q.toString).Yields (c :: rest) none := by
  simpa [Parser.one, Ne.symm other] using Parser.literalComputes q (c :: rest)

theorem pairFull : pair q ≠ "" := by
  simp [pair]

theorem pairSpelled (q : Char) : (pair q).toList = [q, q] :=
  String.toList_ofList

theorem pairYields : (literal (pair q)).Yields (q :: q :: rest) (some ⟨rest, [pair q]⟩) := by
  have here := Parser.literalHere (pairFull (q := q)) rest
  rwa [pairSpelled] at here

theorem pairMiss (other : c ≠ q) : (literal (pair q)).Yields (c :: rest) none := by
  rw [Parser.literalNone pairFull, pairSpelled, List.cons_prefix_cons]
  exact fun begins => other begins.1.symm

theorem pairClosing : (literal (pair q)).Yields (q :: rest) none ↔ Apart (· == q) rest := by
  rw [Parser.literalNone pairFull, pairSpelled]
  cases rest with
  | nil => simp [Apart]
  | cons c rest =>
    rw [Text.apartCons, List.cons_prefix_cons, List.cons_prefix_cons, beq_eq_false_iff_ne]
    simp [eq_comm]

theorem doubledWalk (stop : Apart (· == q) rest) (s : Text) :
    Walk Char.toString (literal q.toString) (literal (pair q)) (doubled q s ++ q :: rest)
      (s.map (piece q)) (q :: rest) := by
  induction s with
  | nil => exact .stop (pairClosing.mpr stop) (.inr ⟨_, quoteYields⟩)
  | cons c s ih =>
    by_cases same : c = q
    · subst same
      rw [doubledQuote, List.map_cons, piece, if_pos rfl]
      exact .escaped pairYields ih
    · rw [doubledOther same, List.map_cons, piece, if_neg same]
      exact .scalar (pairMiss same) (quoteMiss same) ih

theorem walkDoubled
    (walk : Walk Char.toString (literal q.toString) (literal (pair q)) t pieces last) :
    ∃ s, t = doubled q s ++ last ∧ pieces = s.map (piece q) := by
  induction walk with
  | stop _ _ => exact ⟨[], rfl, rfl⟩
  | @escaped t m _ _ here _ ih =>
    obtain ⟨s, split, rfl⟩ := ih
    obtain ⟨text, made⟩ := Parser.literalSome here
    refine ⟨q :: s, ?_, by simp [made, piece]⟩
    rw [text, pairSpelled, split, doubledQuote]
    rfl
  | @scalar c t _ _ _ inside _ ih =>
    obtain ⟨s, rfl, rfl⟩ := ih
    have other : c ≠ q := by
      intro same
      subst same
      cases Except.ok.inj (inside.symm.trans quoteYields)
    exact ⟨c :: s, by rw [doubledOther other, List.cons_append], by simp [piece, other]⟩

theorem quotedYields (stop : Apart (· == q) rest) (s : Text) :
    (quoted q).Yields (q :: (doubled q s ++ q :: rest))
      (some ⟨rest, [q.toString] ++ s.map (piece q) ++ [q.toString]⟩) :=
  Parser.blockYields (fun _ => Parser.advancesAny (Parser.literalAdvances _))
    (fun _ => Parser.literalAdvances _) quoteYields (doubledWalk stop s) quoteYields

theorem quotedMatches {input : Text} {o : Match String} (found : (quoted q).Yields input (some o)) :
    Apart (· == q) o.rest ∧ ∃ s, input = q :: (doubled q s ++ q :: o.rest) ∧
      o.produced = [q.toString] ++ s.map (piece q) ++ [q.toString] := by
  have answers (n : Nat) : (literal q.toString).Advances n 0 :=
    Parser.advancesAny (Parser.literalAdvances _)
  have advances (n : Nat) : (literal (pair q)).Advances n 1 := Parser.literalAdvances _
  obtain ⟨m, pieces, last, closing, opened, walk, closed, rfl⟩ :=
    Parser.blockMatches answers answers advances found
  obtain ⟨rfl, opening⟩ := Parser.literalSome opened
  obtain ⟨rfl, closes⟩ := Parser.literalSome closed
  obtain ⟨s, split, rfl⟩ := walkDoubled walk
  rw [quoteSpelled, List.singleton_append] at split walk
  refine ⟨pairClosing.mp (Parser.walkMissed walk), s, ?_, ?_⟩
  · rw [quoteSpelled, split, List.singleton_append]
  · rw [opening, closes]

/-- A text with its quotes doubled, between quotes and in front of anything that begins with no quote, is
read as its scalars one by one, and from what they are read as the text comes back. Whatever else is read
is the quoted form of one text. -/
theorem quotedRoundTrip (q : Char) :
    (∀ s rest, Apart (· == q) rest →
      (quoted q).Yields (q :: (doubled q s ++ q :: rest))
        (some ⟨rest, [q.toString] ++ s.map (piece q) ++ [q.toString]⟩) ∧
      (s.map (piece q)).flatMap (undoubled q) = s) ∧
    ∀ input o, (quoted q).Yields input (some o) → Apart (· == q) o.rest ∧
      ∃ s, input = q :: (doubled q s ++ q :: o.rest) ∧
        o.produced = [q.toString] ++ s.map (piece q) ++ [q.toString] ∧
        ∀ u, input = q :: (doubled q u ++ q :: o.rest) → u = s := by
  refine ⟨fun s rest stop => ⟨quotedYields stop s, undoubledPieces q s⟩, fun input o found => ?_⟩
  obtain ⟨stop, s, split, made⟩ := quotedMatches found
  refine ⟨stop, s, split, made, fun u same => ?_⟩
  have again := quotedYields stop u
  rw [← same] at again
  have produced := congrArg Match.produced (Option.some.inj (Except.ok.inj (again.symm.trans found)))
  exact piecesInjective (List.append_cancel_left (List.append_cancel_right (produced.trans made)))

theorem quotedRoundTripOfQuotes :
    Apart (· == '"') ['b'] ∧ doubled '"' ['"', 'é', '"', '"'] = "\"\"é\"\"\"\"".toList ∧
      (quoted '"').Yields "\"\"\"é\"\"\"\"\"b".toList
        (some ⟨['b'], ["\"", "\"\"", "é", "\"\"", "\"\"", "\""]⟩) ∧
      ["\"\"", "é", "\"\"", "\"\""].flatMap (undoubled '"') = ['"', 'é', '"', '"'] := by
  have stop : Apart (· == '"') ['b'] := Text.apartCons.mpr rfl
  obtain ⟨forth, -⟩ := quotedRoundTrip '"'
  obtain ⟨matched, back⟩ := forth ['"', 'é', '"', '"'] ['b'] stop
  exact ⟨stop, rfl, matched, back⟩

end Descent.Doubling
