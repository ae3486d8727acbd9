/-!
# Steps in sequence

Running a step for each item of a list, from the first to the last, where an error ends the run.
-/

namespace DocQuery.Sequence

universe u

variable {m : Type → Type u} [Monad m] {α β : Type}

/-- The results of a step for each item. -/
def collect (step : α → m β) : List α → m (List β)
  | [] => pure []
  | item :: rest => do
    let result ← step item
    let results ← collect step rest
    pure (result :: results)

/-- The results of each step on the item at its place. -/
def collectZip : List (α → m β) → List α → m (List β)
  | step :: steps, item :: rest => do
    let result ← step item
    let results ← collectZip steps rest
    pure (result :: results)
  | _, _ => pure []

end DocQuery.Sequence
