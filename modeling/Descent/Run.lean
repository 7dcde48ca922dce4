import Descent.Event
/-!
A run: the journal it wrote and how it ended. A run that stops keeps what was written before and
writes nothing after, and nothing that is composed of runs goes on behind a stop.
-/
namespace Descent

inductive Panic where
  | stalledRepetition
  | undefinedHandle
  | droppedHandle
  | foreignInput
  | overflow
  deriving DecidableEq, Repr

def Panic.message : Panic → String
  | .stalledRepetition =>
    "repeated parser succeeded without consuming input, so the repetition could never end"
  | .undefinedHandle => "deferred parser invoked before being defined"
  | .droppedHandle => "recursive parser invoked after its definition was dropped"
  | .foreignInput => "`input` is shorter than the leftover, so it is not what was parsed"
  | .overflow => "attempt to subtract with overflow"

/-- Why a run ended without a result. `exhausted` is a chain of references at one position that is
longer than there are cells, so a grammar that calls itself before it has consumed anything. -/
inductive Stop where
  | panic (cause : Panic)
  | exhausted
  deriving DecidableEq, Repr

structure Run (α : Type) where
  journal : Journal
  ending : Except Stop α
  deriving Repr

namespace Run

variable {α β : Type}

def record (e : Event) : Run Unit :=
  ⟨[e], .ok ()⟩

def stop (s : Stop) : Run α :=
  ⟨[], .error s⟩

def panic (p : Panic) : Run α :=
  stop (.panic p)

def behind (before : Journal) (r : Run α) : Run α :=
  ⟨before ++ r.journal, r.ending⟩

def andThen (r : Run α) (next : α → Run β) : Run β :=
  match r.ending with
  | .ok a => (next a).behind r.journal
  | .error s => ⟨r.journal, .error s⟩

instance : Monad Run where
  pure a := ⟨[], .ok a⟩
  bind := andThen

def difference (a b : Nat) : Run Nat :=
  if b ≤ a then pure (a - b) else panic .overflow

theorem pureEq (a : α) : (pure a : Run α) = ⟨[], .ok a⟩ := rfl

theorem bindOk (before : Journal) (a : α) (next : α → Run β) :
    ((⟨before, .ok a⟩ : Run α) >>= next) = (next a).behind before := rfl

theorem bindError (before : Journal) (s : Stop) (next : α → Run β) :
    ((⟨before, .error s⟩ : Run α) >>= next) = ⟨before, .error s⟩ := rfl

theorem behindNil (r : Run α) : r.behind [] = r := rfl

theorem behindBehind (a b : Journal) (r : Run α) : (r.behind b).behind a = r.behind (a ++ b) := by
  simp [behind, List.append_assoc]

theorem mapId (r : Run α) : id <$> r = r := by
  obtain ⟨j, e⟩ := r
  cases e <;> simp [Functor.map, andThen, behind]

theorem pureBind (a : α) (next : α → Run β) : (pure a >>= next) = next a := by
  rw [pureEq, bindOk, behindNil]

theorem bindBehind (before : Journal) (r : Run α) (next : α → Run β) :
    (r.behind before >>= next) = (r >>= next).behind before := by
  obtain ⟨j, e⟩ := r
  cases e with
  | error s => rfl
  | ok a =>
    rw [bindOk, behindBehind]
    rfl

theorem bindAssoc {γ : Type} (r : Run α) (f : α → Run β) (g : β → Run γ) :
    (r >>= f >>= g) = (r >>= fun a => f a >>= g) := by
  obtain ⟨j, e⟩ := r
  cases e with
  | error s => rfl
  | ok a => rw [bindOk, bindOk, bindBehind]

instance : LawfulMonad Run :=
  LawfulMonad.mk' Run mapId pureBind bindAssoc

end Run
end Descent
