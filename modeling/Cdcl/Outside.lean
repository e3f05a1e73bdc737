import Cdcl.Arena

/-!
# What comes from outside

The calls do not determine a run.  Learnt clauses that compare as equal may come out of an
unstable sort in any order, other threads may write into the flag that stops a search, and
the stop callback answers as it likes.

`Outside` fixes the first two for a whole run, and `StopRule` is the callback.  They are
arbitrary, so that what holds of every run holds whatever they are.  By default a sort is
stable, nobody writes into the flag, and the callback never says yes.
-/

namespace Cdcl

/-- A learnt clause with what decides whether it is kept. -/
structure Candidate where
  id : ClauseId
  short : Bool
  activity : Float32

/-- Longer clauses come first, then the less active ones. -/
def Candidate.le (a b : Candidate) : Bool :=
  if a.short = b.short then a.activity ≤ b.activity else b.short

/-- What a run takes from outside. -/
structure Outside where
  /-- The order in which the candidates come out of the sort. -/
  arrange : List Candidate → List Candidate := (·.mergeSort Candidate.le)
  arrange_perm : ∀ cs, (arrange cs).Perm cs := by exact fun cs => cs.mergeSort_perm _
  /-- What others have last written into the interrupt flag when the solver looks at it for
  the `n`-th time, if they have written since the look before. -/
  writes : Nat → Option Bool := fun _ => none

instance : Inhabited Outside := ⟨{}⟩

/-- The callback that is asked whether to stop, and counts how often. -/
structure StopRule where
  polls : Nat := 0
  /-- The answer to the poll of a number; the first poll has number 1. -/
  answer : Nat → Bool := fun _ => false
deriving Inhabited

/-- Asks whether to stop. -/
def StopRule.poll (r : StopRule) : StopRule × Bool :=
  let r := { r with polls := r.polls + 1 }
  (r, r.answer r.polls)

end Cdcl
