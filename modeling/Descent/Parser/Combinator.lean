import Descent.Parser.Basic
/-!
Parsers made of parsers. Each is atomic: where it does not match, nothing is consumed and nothing
is produced, however far its parts came. A part that stops the run stops the whole.
-/
namespace Descent.Parser

variable {α β : Type}

def choice : List (Parser α) → Parser α
  | [], _ => pure none
  | p :: ps, input => do
    match ← p input with
    | some m => pure (some m)
    | none => choice ps input

def sequence : List (Parser α) → Parser α
  | [], input => pure (some ⟨input, []⟩)
  | p :: ps, input => do
    match ← p input with
    | none => pure none
    | some m =>
      match ← sequence ps m.rest with
      | none => pure none
      | some n => pure (some ⟨n.rest, m.produced ++ n.produced⟩)

/-- Follows `p` from rest to rest up to where it does not match. A match that leaves as much as it
was given would be repeated forever, and panics. -/
def repeated (p : Parser α) (input : Text) : Run (Match α) := do
  match ← p input with
  | none => pure ⟨input, []⟩
  | some m =>
    if _shrinks : m.rest.byteLength < input.byteLength then do
      let n ← repeated p m.rest
      pure ⟨n.rest, m.produced ++ n.produced⟩
    else
      Run.panic .stalledRepetition
termination_by input.byteLength

def many (p : Parser α) : Parser α := fun input => do
  let m ← repeated p input
  pure (some m)

def many1 (p : Parser α) : Parser α :=
  sequence [p, many p]

def refine (f : Match α → Option (Match β)) (p : Parser α) : Parser β := fun input => do
  let found ← p input
  pure (found.bind f)

def map (f : α → β) : Parser α → Parser β :=
  refine fun m => some ⟨m.rest, m.produced.map f⟩

def mapAll (f : List α → List β) : Parser α → Parser β :=
  refine fun m => some ⟨m.rest, f m.produced⟩

def mapAll? (f : List α → Option (List β)) : Parser α → Parser β :=
  refine fun m => (f m.produced).map fun values => ⟨m.rest, values⟩

def fold (f : α → β → β) (seed : β) : Parser α → Parser β :=
  mapAll fun values => [values.foldl (fun reduced value => f value reduced) seed]

def fold? (f : α → β → Option β) (seed : β) : Parser α → Parser β :=
  mapAll? fun values => (values.foldlM (fun reduced value => f value reduced) seed).map ([·])

def notAhead (p : Parser α) : Parser β := fun input => do
  match ← p input with
  | some _ => pure none
  | none => pure (some ⟨input, []⟩)

def skip : Parser α → Parser β :=
  mapAll fun _ => []

def whole : Parser α → Parser α :=
  refine fun m => if m.rest.isEmpty then some m else none

def between {γ δ : Type} (left : Parser γ) (middle : Parser α) (right : Parser δ) : Parser α :=
  sequence [skip left, middle, skip right]

def content (ofChar : Char → α) (terminator escape : Parser α) : Parser α :=
  choice [escape, sequence [notAhead terminator, map ofChar anyChar]]

def block (ofChar : Char → α) (start terminator escape : Parser α) : Parser α :=
  sequence [start, many (content ofChar terminator escape), terminator]

def report (input : Text) : Option (Match α) → Run Unit
  | none => Run.record (.unmatched input.byteLength)
  | some m =>
    match m.consumed input with
    | .ok consumed => Run.record (.matched consumed m.produced.length)
    | .error cause => Run.panic cause

/-- Behaves as `p` and writes a span around it, which is left also where the run stops. -/
def traced (label : String) (p : Parser α) : Parser α := fun input =>
  let inside := do
    let found ← p input
    report input found
    pure found
  ⟨.enter label :: inside.journal ++ [.exit label], inside.ending⟩

end Descent.Parser
