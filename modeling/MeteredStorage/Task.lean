
namespace MeteredStorage

abbrev Task (σ ε α : Type) := ExceptT ε (StateM σ) α

namespace Task

variable {σ τ ε ε' α : Type}

/-- Runs `task` on the part of the state that `get` reads and `put` writes back. -/
def zoom (get : σ → τ) (put : τ → σ → σ) (wrap : ε → ε') (task : Task τ ε α) : Task σ ε' α :=
  fun s =>
    match task (get s) with
    | (.ok a, t) => (.ok a, put t s)
    | (.error e, t) => (.error (wrap e), put t s)

def attempt (task : Task σ ε α) : Task σ ε' (Except ε α) := fun s =>
  let (r, t) := task s
  (.ok r, t)

def ofExcept (wrap : ε → ε') : Except ε α → Task σ ε' α
  | .ok a => pure a
  | .error e => throw (wrap e)

end Task

end MeteredStorage
