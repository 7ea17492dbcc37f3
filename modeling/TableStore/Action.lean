/-!
Actions: computations that end with a value or an error, and in a new state either way.
-/

namespace TableStore

variable {ε σ τ α : Type}

def finalState : EStateM.Result ε σ α → σ
  | .ok _ s => s
  | .error _ s => s

/-- Runs an action on a part of a larger state. -/
def onPart (part : τ → σ) (replace : τ → σ → τ) (act : EStateM ε σ α) : EStateM ε τ α :=
  fun t =>
    match act (part t) with
    | .ok a s => .ok a (replace t s)
    | .error e s => .error e (replace t s)

end TableStore
