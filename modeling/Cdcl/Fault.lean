import Cdcl.Literal

/-!
# Faults

An operation whose precondition does not hold answers a `Fault` instead of a
state.  Some faults carry a message for the caller; the others only say what kind
of check failed.
-/

namespace Cdcl

/-- Why an operation could not be carried out. -/
inductive Fault where
  /-- The options are outside their ranges. -/
  | invalidOptions
  /-- Simplification was asked for above the root level. -/
  | simplifyAboveRoot
  /-- A literal was to be assigned that already has a value. -/
  | alreadyAssigned (l : Lit)
  /-- A variable index beyond the greatest one that can be created. -/
  | variableTooLarge
  /-- A byte that encodes no truth value. -/
  | invalidTruth
  /-- A clause of fewer than two literals was to be stored. -/
  | shortClause
  /-- The implication graph ended at a decision with literals still to resolve. -/
  | decisionReached (p : Lit) (pending : Nat)
  /-- Two scores were compared of which one is not a number. -/
  | incomparableScores
  /-- Two activities were compared of which one is not a number. -/
  | incomparableActivities
  /-- A clause has no watcher in a list where it should have one. -/
  | watcherMissing
  /-- An internal condition does not hold. -/
  | conditionBroken
  /-- A position or a key lies outside its container. -/
  | outOfRange
  /-- A number left the range of its width. -/
  | overflow
  /-- A size, an offset or a counter needs more bits than are kept for it. -/
  | widthExceeded
  /-- The size of the arena in the units of the report on a collection does not fit a word. -/
  | reportTooLarge
  /-- A place chosen at random lies outside of what it was to be chosen from. -/
  | randomOutOfRange
  /-- The bound on the number of steps was reached. -/
  | outOfFuel
deriving DecidableEq, Repr, Inhabited

/-- The message of a fault, if it has one. -/
def Fault.message : Fault → Option String
  | invalidOptions => some "invalid solver options"
  | simplifyAboveRoot => some "simplify is only legal at level 0"
  | alreadyAssigned l => some ("lit " ++ l.text ++ " should be undef")
  | variableTooLarge => some "Var::from_idx: index too large"
  | invalidTruth => some "lbool::from_u8: invalid value"
  | shortClause => some "unit clauses are never stored"
  | decisionReached p pending =>
      some ("analyze: reached a decision literal " ++ p.text ++
        ", path_c=" ++ toString pending)
  | incomparableScores => some "NaN score"
  | incomparableActivities => some "NaN activity"
  | watcherMissing => some "Watcher not found"
  | conditionBroken => none
  | outOfRange => none
  | overflow => none
  | widthExceeded => none
  | reportTooLarge => none
  | randomOutOfRange => none
  | outOfFuel => none

/-- Peels the first step off a computation that succeeds. -/
theorem bind_eq_ok {α β : Type} {x : Except Fault α} {f : α → Except Fault β} {b : β} :
    x >>= f = .ok b ↔ ∃ a, x = .ok a ∧ f a = .ok b := by
  cases x <;> simp [Bind.bind, Except.bind]

/-- Fails with `conditionBroken` unless `c` holds. -/
def ensure (c : Bool) : Except Fault Unit :=
  if c then .ok () else .error .conditionBroken

@[simp] theorem ensure_true : ensure true = .ok () := rfl

theorem ensure_eq_ok {c : Bool} {u : Unit} : ensure c = .ok u ↔ c = true := by
  cases c <;> simp [ensure]

/-- Fails with `widthExceeded` unless `c` holds. -/
def ensureWidth (c : Bool) : Except Fault Unit :=
  if c then .ok () else .error .widthExceeded

theorem ensureWidth_eq_ok {c : Bool} {u : Unit} : ensureWidth c = .ok u ↔ c = true := by
  cases c <;> simp [ensureWidth]

/-- The difference of two counters, which may not fall below zero. -/
def checkedSub (a b : Nat) : Except Fault Nat :=
  if b ≤ a then .ok (a - b) else .error .overflow

/-- A difference that is not below zero. -/
theorem checkedSub_eq_ok {a b c : Nat} : checkedSub a b = .ok c ↔ a = b + c := by
  unfold checkedSub
  split
  · simp only [Except.ok.injEq]; omega
  · simp only [reduceCtorEq, false_iff]; omega

end Cdcl
