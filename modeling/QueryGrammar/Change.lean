import QueryGrammar.Error
/-!
Changes to a state that may be refused on the way. A refused change keeps what it had done before
the refusal, so whether a call is all or nothing is a property to be proved of it.
-/
namespace QueryGrammar

/-- A change of a state of type `σ` that answers with an `α` or is refused. -/
abbrev Change (σ α : Type) := ExceptT BuildError (StateM σ) α

namespace Change

variable {σ τ α : Type}

/-- Takes over the outcome of a check. -/
def ofOutcome (x : Outcome α) : Change σ α := ExceptT.mk (pure x)

/-- The answer of a change together with the state it leaves. -/
def perform (x : Change σ α) (s : σ) : Outcome α × σ := x.run.run s

/-- A call that returns the new state only if it is accepted. -/
def call (f : σ → Outcome (α × σ)) : Change σ α := do
  let (a, s) ← ofOutcome (f (← get))
  set s
  return a

/-- The answer and the new state of a change that is accepted, and nothing of one that is refused. -/
def accepted (x : Change σ α) (s : σ) : Outcome (α × σ) :=
  let (outcome, t) := x.perform s
  outcome.map fun a => (a, t)

/-- Makes a change and hands on its outcome as an answer, refused or not. -/
def observe (x : Change σ α) : Change σ (Outcome α) :=
  ExceptT.mk (Except.ok <$> x.run)

/-- A change of a part of the state. -/
def within (part : τ → σ) (replace : τ → σ → τ) (x : Change σ α) : Change τ α :=
  ExceptT.mk fun whole =>
    let (outcome, s) := x.perform (part whole)
    (outcome, replace whole s)

end Change

end QueryGrammar
