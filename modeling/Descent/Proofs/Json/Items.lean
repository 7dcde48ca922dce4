import Descent.Proofs.Json.Quoted
/-!
Strings of JSON texts, item by item: a scalar that stands for itself, a letter with its backslash, or
four digits that name a UTF-16 unit. A string matches exactly if its units come in pairs where they
are surrogates, and it is the text with the same UTF-16 units, however that text was escaped.
-/
namespace Descent.Json.Quoted
open Descent.Parser (Yields)

inductive Piece where
  | scalar (c : Char)
  | unit (u : Nat)

inductive Item : Text → Piece → Prop
  | plain {c} (printable : 0x20 ≤ c.toNat) (quote : c ≠ '"') (backslash : c ≠ '\\') :
      Item [c] (.scalar c)
  | simple {letter c} (known : (letter, c) ∈ letters) : Item ['\\', letter] (.scalar c)
  | unit {t u} (hex : Hex t u) : Item ('\\' :: 'u' :: t) (.unit u)

inductive Items : Text → List Piece → Prop
  | done : Items [] []
  | more {t p u ps} (first : Item t p) (rest : Items u ps) : Items (t ++ u) (p :: ps)

structure Paired (pieces : List Piece) : Prop where
  high : ∀ i high, pieces[i]? = some (.unit high) → isHighSurrogate high = true →
    ∃ low, pieces[i + 1]? = some (.unit low) ∧ isLowSurrogate low = true
  low : ∀ i low, pieces[i]? = some (.unit low) → isLowSurrogate low = true →
    ∃ j high, i = j + 1 ∧ pieces[j]? = some (.unit high) ∧ isHighSurrogate high = true

def scalars : List Piece → List Char
  | [] => []
  | .scalar c :: ps => c :: scalars ps
  | .unit high :: .unit low :: ps =>
    if isHighSurrogate high then combine high low :: scalars ps
    else Char.ofNat high :: scalars (.unit low :: ps)
  | .unit u :: ps => Char.ofNat u :: scalars ps

def Piece.Single (p : Piece) : Prop :=
  ∀ u, p = .unit u → isHighSurrogate u = false ∧ isLowSurrogate u = false

theorem pairedNil : Paired [] := ⟨by simp, by simp⟩

theorem pairedBehind (before : List Piece) {ps : List Piece} {p : Piece}
    (paired : Paired (before ++ p :: ps))
    (other : ∀ u, p = .unit u → isHighSurrogate u = false) : Paired ps := by
  have shift (i : Nat) : (before ++ p :: ps)[before.length + 1 + i]? = ps[i]? := by
    rw [List.getElem?_append_right (by omega)]
    have place : before.length + 1 + i - before.length = i + 1 := by omega
    rw [place, List.getElem?_cons_succ]
  constructor
  · intro i high here isHigh
    exact shift (i + 1) ▸ paired.high _ high ((shift i).trans here) isHigh
  · intro i low here isLow
    obtain ⟨j, high, place, there, isHigh⟩ := paired.low _ low ((shift i).trans here) isLow
    cases i with
    | zero =>
      obtain rfl : j = before.length := by omega
      rw [List.getElem?_append_right (Nat.le_refl _), Nat.sub_self, List.getElem?_cons_zero] at there
      simp [other high (Option.some.inj there)] at isHigh
    | succ i =>
      obtain rfl : j = before.length + 1 + i := by omega
      exact ⟨i, high, rfl, (shift i).symm.trans there, isHigh⟩

theorem pairedCons {p : Piece} {ps : List Piece} (single : p.Single) (paired : Paired ps) :
    Paired (p :: ps) := by
  constructor
  · intro i high here isHigh
    cases i with
    | zero => simp [(single high (Option.some.inj here)).1] at isHigh
    | succ i => exact paired.high i high here isHigh
  · intro i low here isLow
    cases i with
    | zero => simp [(single low (Option.some.inj here)).2] at isLow
    | succ i =>
      obtain ⟨j, high, rfl, there, isHigh⟩ := paired.low i low here isLow
      exact ⟨j + 1, high, rfl, there, isHigh⟩

theorem highNotLow {u : Nat} (high : isHighSurrogate u = true) : isLowSurrogate u = false := by
  simp only [isHighSurrogate, isLowSurrogate, decide_eq_true_eq, decide_eq_false_iff_not] at high ⊢
  omega

theorem lowNotHigh {u : Nat} (low : isLowSurrogate u = true) : isHighSurrogate u = false := by
  simp only [isHighSurrogate, isLowSurrogate, decide_eq_true_eq, decide_eq_false_iff_not] at low ⊢
  omega

theorem pairedPair {high low : Nat} {ps : List Piece} (isHigh : isHighSurrogate high = true)
    (isLow : isLowSurrogate low = true) (paired : Paired ps) :
    Paired (.unit high :: .unit low :: ps) := by
  constructor
  · intro i u here isHigh'
    rcases i with _ | _ | i
    · exact ⟨low, rfl, isLow⟩
    · cases Option.some.inj here
      simp [lowNotHigh isLow] at isHigh'
    · exact paired.high i u here isHigh'
  · intro i u here isLow'
    rcases i with _ | _ | i
    · cases Option.some.inj here
      simp [highNotLow isHigh] at isLow'
    · exact ⟨0, high, rfl, rfl, isHigh⟩
    · obtain ⟨j, v, rfl, there, isHigh'⟩ := paired.low i u here isLow'
      exact ⟨j + 2, v, rfl, there, isHigh'⟩

theorem scalarsAlone {u : Nat} (alone : isHighSurrogate u = false) (ps : List Piece) :
    scalars (.unit u :: ps) = Char.ofNat u :: scalars ps := by
  cases ps with
  | nil => rfl
  | cons p ps => cases p <;> simp [scalars, alone]

theorem scalarsPair {high low : Nat} (isHigh : isHighSurrogate high = true) (ps : List Piece) :
    scalars (.unit high :: .unit low :: ps) = combine high low :: scalars ps := by
  rw [scalars, if_pos isHigh]

theorem surrogateIff (u : Nat) : (isHighSurrogate u = false ∧ isLowSurrogate u = false) ↔
    (u < 0xD800 ∨ 0xE000 ≤ u) := by
  simp only [isHighSurrogate, isLowSurrogate, decide_eq_false_iff_not]
  omega

theorem contentItems {t : Text} {cs : List Char} (content : Content t cs) :
    ∃ pieces, Items t pieces ∧ Paired pieces ∧ cs = scalars pieces := by
  induction content with
  | done => exact ⟨[], .done, pairedNil, rfl⟩
  | @more t c u cs first _ ih =>
    obtain ⟨pieces, items, paired, rfl⟩ := ih
    cases first with
    | plain printable quote backslash =>
      exact ⟨.scalar c :: pieces, .more (.plain printable quote backslash) items,
        pairedCons (by simp [Piece.Single]) paired, rfl⟩
    | simple known =>
      exact ⟨.scalar c :: pieces, .more (.simple known) items,
        pairedCons (by simp [Piece.Single]) paired, rfl⟩
    | @unit t unit hex alone =>
      have single := (surrogateIff unit).mpr alone
      refine ⟨.unit unit :: pieces, .more (.unit hex) items, pairedCons ?_ paired,
        (scalarsAlone single.1 pieces).symm⟩
      intro u same
      cases same
      exact single
    | @pair t t' high low hex hex' isHigh isLow =>
      have first : isHighSurrogate high = true := decide_eq_true isHigh
      have second : isLowSurrogate low = true := decide_eq_true isLow
      refine ⟨.unit high :: .unit low :: pieces, ?_, pairedPair first second paired,
        (scalarsPair first pieces).symm⟩
      have both := Items.more (.unit hex) (.more (.unit hex') items)
      simpa using both

theorem itemsContent {t : Text} {pieces : List Piece} (items : Items t pieces)
    (paired : Paired pieces) : Content t (scalars pieces) := by
  induction size : pieces.length using Nat.strongRecOn generalizing t pieces with
  | ind _ ih => ?_
  subst size
  cases items with
  | done => exact .done
  | @more t p u ps first rest =>
    cases first with
    | plain printable quote backslash =>
      have later := pairedBehind [] paired (by simp)
      exact .more (.plain printable quote backslash) (ih _ (Nat.lt_succ_self _) rest later rfl)
    | simple known =>
      have later := pairedBehind [] paired (by simp)
      exact .more (.simple known) (ih _ (Nat.lt_succ_self _) rest later rfl)
    | @unit t unit hex =>
      have noLow : isLowSurrogate unit = false := by
        rw [← Bool.not_eq_true]
        intro isLow
        obtain ⟨j, high, place, -⟩ := paired.low 0 unit rfl isLow
        omega
      by_cases isHigh : isHighSurrogate unit = true
      · obtain ⟨low, there, isLow⟩ := paired.high 0 unit rfl isHigh
        cases rest with
        | done => simp at there
        | @more t' q u ps second rest =>
          cases Option.some.inj there
          cases second with
          | unit hex' =>
            have later := pairedBehind [.unit unit] paired (by
              rintro v ⟨⟩
              exact lowNotHigh isLow)
            have pair := Spelled.pair hex hex' (of_decide_eq_true isHigh) (of_decide_eq_true isLow)
            have spelled := Content.more pair (ih _ (by grind) rest later rfl)
            rw [scalarsPair isHigh]
            simpa [combine] using spelled
      · have alone : isHighSurrogate unit = false := by simpa using isHigh
        have later := pairedBehind [] paired (by
          rintro v ⟨⟩
          exact alone)
        rw [scalarsAlone alone]
        exact .more (.unit hex ((surrogateIff unit).mp ⟨alone, noLow⟩))
          (ih _ (Nat.lt_succ_self _) rest later rfl)

def utf16 (c : Char) : List Nat :=
  if c.toNat < 0x10000 then [c.toNat]
  else [0xD800 + (c.toNat - 0x10000) / 0x400, 0xDC00 + (c.toNat - 0x10000) % 0x400]

def Piece.units : Piece → List Nat
  | .scalar c => utf16 c
  | .unit u => [u]

theorem scalarRange (c : Char) : c.toNat < 0xD800 ∨ (0xE000 ≤ c.toNat ∧ c.toNat < 0x110000) := by
  have valid : c.val.toNat < 0xD800 ∨ (0xDFFF < c.val.toNat ∧ c.val.toNat < 0x110000) := c.valid
  have same : c.val.toNat = c.toNat := rfl
  omega

theorem utf16Small {c : Char} (small : c.toNat < 0x10000) : utf16 c = [c.toNat] := if_pos small

theorem utf16Large {c : Char} (large : 0x10000 ≤ c.toNat) : ∃ high low, utf16 c = [high, low] ∧
    isHighSurrogate high = true ∧ isLowSurrogate low = true ∧ combine high low = c := by
  have range := scalarRange c
  refine ⟨_, _, if_neg (Nat.not_lt.mpr large), decide_eq_true (by omega), decide_eq_true (by omega), ?_⟩
  have joined : 0x10000 + (0xD800 + (c.toNat - 0x10000) / 0x400 - 0xD800) * 0x400 +
      (0xDC00 + (c.toNat - 0x10000) % 0x400 - 0xDC00) = c.toNat := by omega
  rw [combine, joined, Char.ofNat_toNat]

theorem scalarAlone (c : Char) : isHighSurrogate c.toNat = false ∧ isLowSurrogate c.toNat = false := by
  have range := scalarRange c
  exact (surrogateIff c.toNat).mpr (by omega)

theorem utf16Begins (c : Char) : ∃ u us, utf16 c = u :: us ∧ isLowSurrogate u = false := by
  by_cases small : c.toNat < 0x10000
  · exact ⟨_, _, utf16Small small, (scalarAlone c).2⟩
  · obtain ⟨high, low, units, isHigh, -⟩ := utf16Large (Nat.le_of_not_lt small)
    exact ⟨high, [low], units, highNotLow isHigh⟩

theorem utf16Differs {c d : Char} {us vs : List Nat} (small : c.toNat < 0x10000)
    (large : 0x10000 ≤ d.toNat) : utf16 c ++ us ≠ utf16 d ++ vs := by
  intro same
  obtain ⟨high, low, units, isHigh, -⟩ := utf16Large large
  rw [utf16Small small, units] at same
  have first : c.toNat = high := (List.cons.inj same).1
  rw [← first, (scalarAlone c).1] at isHigh
  contradiction

theorem utf16Apart {c d : Char} {us vs : List Nat} (same : utf16 c ++ us = utf16 d ++ vs) :
    c = d ∧ us = vs := by
  by_cases small : c.toNat < 0x10000
  · by_cases small' : d.toNat < 0x10000
    · rw [utf16Small small, utf16Small small'] at same
      obtain ⟨first, rest⟩ := List.cons.inj same
      exact ⟨Char.toNat_inj.mp first, rest⟩
    · exact absurd same (utf16Differs small (Nat.le_of_not_lt small'))
  · by_cases small' : d.toNat < 0x10000
    · exact absurd same.symm (utf16Differs small' (Nat.le_of_not_lt small))
    · obtain ⟨high, low, units, -, -, joined⟩ := utf16Large (Nat.le_of_not_lt small)
      obtain ⟨high', low', units', -, -, joined'⟩ := utf16Large (Nat.le_of_not_lt small')
      rw [units, units'] at same
      simp only [List.cons_append, List.nil_append, List.cons.injEq] at same
      obtain ⟨rfl, rfl, rest⟩ := same
      exact ⟨joined.symm.trans joined', rest⟩

theorem scalarNotLow {c : Char} {low : Nat} {us vs : List Nat} (isLow : isLowSurrogate low = true) :
    (Piece.scalar c).units ++ us ≠ low :: vs := by
  intro same
  obtain ⟨u, us', begins, noLow⟩ := utf16Begins c
  rw [Piece.units, begins] at same
  have first : u = low := (List.cons.inj same).1
  rw [first, isLow] at noLow
  contradiction

theorem pieceFull (p : Piece) : p.units ≠ [] := by
  cases p with
  | scalar c =>
    obtain ⟨u, us, units, -⟩ := utf16Begins c
    simp [Piece.units, units]
  | unit u => simp [Piece.units]

theorem scalarSpelled {t : Text} {c : Char} (item : Item t (.scalar c)) : Spelled t c := by
  cases item with
  | plain printable quote backslash => exact .plain printable quote backslash
  | simple known => exact .simple known

theorem lowItem {t : Text} {pieces : List Piece} {low : Nat} {us : List Nat}
    (isLow : isLowSurrogate low = true) (items : Items t pieces)
    (same : pieces.flatMap Piece.units = low :: us) :
    ∃ digits u ps, t = '\\' :: 'u' :: (digits ++ u) ∧ Hex digits low ∧ Items u ps ∧
      ps.flatMap Piece.units = us := by
  cases items with
  | done => cases same
  | @more t p u ps first rest =>
    rw [List.flatMap_cons] at same
    cases first with
    | @unit digits v hex =>
      obtain ⟨rfl, later⟩ := List.cons.inj same
      exact ⟨digits, u, ps, rfl, hex, rest, later⟩
    | @plain c _ _ _ => exact absurd same (scalarNotLow isLow)
    | @simple letter c _ => exact absurd same (scalarNotLow isLow)

theorem itemsSpell {t : Text} {pieces : List Piece} {cs : List Char} (items : Items t pieces)
    (same : pieces.flatMap Piece.units = cs.flatMap utf16) : Content t cs := by
  induction cs generalizing t pieces with
  | nil =>
    cases items with
    | done => exact .done
    | @more t p u ps _ _ => simp [pieceFull p] at same
  | cons c cs ih =>
    rw [List.flatMap_cons] at same
    obtain ⟨u, us, begins, noLow⟩ := utf16Begins c
    cases items with
    | done => simp [begins] at same
    | @more t p u ps first rest =>
      rw [List.flatMap_cons] at same
      cases p with
      | scalar d =>
        obtain ⟨rfl, later⟩ := utf16Apart same
        exact .more (scalarSpelled first) (ih rest later)
      | unit v =>
        cases first with
        | unit hex =>
          by_cases small : c.toNat < 0x10000
          · rw [utf16Small small] at same
            obtain ⟨rfl, later⟩ := List.cons.inj same
            have spelled := Spelled.unit hex ((surrogateIff c.toNat).mp (scalarAlone c))
            rw [Char.ofNat_toNat] at spelled
            exact .more spelled (ih rest later)
          · obtain ⟨high, low, units, isHigh, isLow, joined⟩ := utf16Large (Nat.le_of_not_lt small)
            rw [units] at same
            obtain ⟨rfl, later⟩ := List.cons.inj same
            obtain ⟨digits, u', ps', rfl, hex', rest', later'⟩ := lowItem isLow rest later
            have pair := Spelled.pair hex hex' (of_decide_eq_true isHigh) (of_decide_eq_true isLow)
            rw [show Char.ofNat _ = c from joined] at pair
            simpa using Content.more pair (ih rest' later')

def Says (body : Text) (s : String) : Prop :=
  ∃ pieces, Items body pieces ∧ Paired pieces ∧ s = String.ofList (scalars pieces)

theorem saysIff (body : Text) (s : String) :
    Says body s ↔ ∃ cs, Content body cs ∧ s = String.ofList cs := by
  constructor
  · rintro ⟨pieces, items, paired, rfl⟩
    exact ⟨_, itemsContent items paired, rfl⟩
  · rintro ⟨cs, content, rfl⟩
    obtain ⟨pieces, items, paired, rfl⟩ := contentItems content
    exact ⟨pieces, items, paired, rfl⟩

theorem saysYields {body : Text} {s : String} (told : Says body s) (rest : Text) :
    parser.Yields ('"' :: (body ++ '"' :: rest)) (some ⟨rest, [s]⟩) := by
  obtain ⟨cs, content, rfl⟩ := (saysIff body s).mp told
  simpa using parserYields ⟨body, cs, rfl, content, rfl⟩ rest

theorem parserSays (input : Text) : ∃ found, parser.Yields input found ∧ ∀ m, found = some m →
    ∃ body s, input = '"' :: (body ++ '"' :: m.rest) ∧ Says body s ∧ m.produced = [s] := by
  obtain ⟨found, read, words⟩ := Run.endsTotal (parserReads input (Nat.le_refl _))
  refine ⟨found, read, fun m same => ?_⟩
  obtain ⟨w, splits, s, ⟨body, cs, rfl, content, rfl⟩, produced⟩ := words m same
  exact ⟨body, _, by simpa using splits, (saysIff body _).mpr ⟨cs, content, rfl⟩, produced⟩

/-- A string matches exactly if it is items between quotes whose surrogates come in pairs, and is then
the text that they say. Anything else is no match: the run does not stop, and no digit takes a unit out
of 16 bits. However a text is escaped, its items have the UTF-16 units of the text, and so they are
read back as the text. -/
theorem stringReadsItems (input : Text) :
    (∀ rest s, parser.Yields input (some ⟨rest, [s]⟩) ↔
      ∃ body, input = '"' :: (body ++ '"' :: rest) ∧ Says body s) ∧
    ((∃ rest s, parser.Yields input (some ⟨rest, [s]⟩)) ∨ parser.Yields input none) ∧
    codeUnit = checkedUnit ∧
    (∀ c, Numeral.digitValue? 16 c = "0123456789abcdef".toList.idxOf? c.toLower) ∧
    ∀ body pieces (s : String) rest, Items body pieces →
      pieces.flatMap Piece.units = s.toList.flatMap utf16 →
      parser.Yields ('"' :: (body ++ '"' :: rest)) (some ⟨rest, [s]⟩) := by
  obtain ⟨found, read, words⟩ := parserSays input
  refine ⟨fun rest s => ⟨fun matched => ?_, ?_⟩, ?_, codeUnitChecked,
    Numeral.digitValueHex, ?_⟩
  · cases Except.ok.inj (read.symm.trans matched)
    obtain ⟨body, s', splits, told, produced⟩ := words _ rfl
    cases produced
    exact ⟨body, splits, told⟩
  · rintro ⟨body, rfl, told⟩
    exact saysYields told rest
  · cases found with
    | none => exact .inr read
    | some m =>
      obtain ⟨rest, produced⟩ := m
      obtain ⟨body, s, -, -, same⟩ := words _ rfl
      cases same
      exact .inl ⟨rest, s, read⟩
  · intro body pieces s rest items same
    refine saysYields ((saysIff body s).mpr ⟨s.toList, itemsSpell items same, ?_⟩) rest
    exact String.ofList_toList.symm

end Descent.Json.Quoted
