import Cdcl.Heap
import Cdcl.Trail
import Cdcl.Random
import Cdcl.Options

/-!
# The decision order

Which variable is decided next, and with which sign.  Variables have an activity
that grows when they take part in conflicts, and a heap keeps the most active one
on top.  Every variable that may be decided and has no value is in the heap; others
may be in it as well, and are skipped when they come up.

The sign is the one that the user prefers for the variable, or a random one, or the
one that the variable had last.
-/

namespace Cdcl

/-- The state of the decision heuristic. -/
structure Order where
  activity : DenseMap Var Float
  /-- How much a conflict adds to an activity. -/
  increment : Float
  heap : Heap Var
  /-- The sign that each variable had last. -/
  phase : Flags Var
  /-- The value that the user prefers. -/
  preferred : DenseMap Var Truth
  /-- May the variable be decided? -/
  eligible : Flags Var
  /-- How many variables may be decided. -/
  eligibleCount : Nat
  seed : Float
deriving Inhabited

namespace Order

/-- The order without variables. -/
def empty (seed : Float) : Order :=
  ⟨.empty, 1.0, .empty, .empty, .empty, .empty, 0, seed⟩

/-- More active variables come first. -/
def before (activity : DenseMap Var Float) : Heap.Less Var :=
  Heap.byScore .incomparableActivities activity.get

/-- Applies an operation to the heap. -/
@[inline] def updateHeap (o : Order)
    (f : Heap.Less Var → Heap Var → Except Fault (Heap Var)) : Except Fault Order :=
  let heap := o.heap
  let o := { o with heap := .empty }
  match f (before o.activity) heap with
  | .ok heap => .ok { o with heap }
  | .error e => .error e

theorem updateHeap_eq_ok {o o' : Order}
    {f : Heap.Less Var → Heap Var → Except Fault (Heap Var)} :
    o.updateHeap f = .ok o' ↔
      ∃ heap, f (before o.activity) o.heap = .ok heap ∧ o' = { o with heap } := by
  unfold updateHeap
  simp only
  split
  next h => simp [h, eq_comm]
  next h => simp [h]

/-- Puts a variable into the heap if it may be decided and is not there. -/
def offer (o : Order) (v : Var) : Except Fault Order := do
  if !o.heap.contains v && (← o.eligible.get v) then
    o.updateHeap fun less heap => heap.insert less v
  else
    return o

/-- The number of variables that may be decided, after one of which this was true if
`was` changes to `now`. -/
def recount (count : Nat) (was now : Bool) : Except Fault Nat :=
  match was, now with
  | false, true => .ok (count + 1)
  | true, false => checkedSub count 1
  | _, _ => .ok count

/-- Says whether a variable may be decided. -/
def setEligible (o : Order) (v : Var) (b : Bool) : Except Fault Order := do
  let eligibleCount ← recount o.eligibleCount (← o.eligible.get v) b
  let eligible ← o.eligible.set v b
  { o with eligible, eligibleCount }.offer v

/-- Adds a variable. -/
def addVar (o : Order) (v : Var) (randomActivity : Bool) (preferred : Truth)
    (eligible : Bool) : Except Fault Order := do
  let (start, seed) :=
    if randomActivity then
      let (x, seed) := Random.next o.seed
      (x * 0.00001, seed)
    else
      (0.0, o.seed)
  { o with
    seed
    activity := o.activity.insert v 0.0 start
    phase := o.phase.insert v false false
    preferred := o.preferred.insert v .unknown preferred
    eligible := o.eligible.reserve v false }.setEligible v eligible

/-- The greatest variable activity before all are scaled down. -/
def activityBound : Float := 1e100

/-- The factor by which variable activities are scaled down. -/
def activityScale : Float := 1e-100

/-- Adds to the activity of a variable, and lets it rise in the heap. -/
def bump (o : Order) (v : Var) : Except Fault Order := do
  let x := (← o.activity.get v) + o.increment
  let activity ← o.activity.set v x
  let o :=
    if activityBound < x then
      { o with
        activity := activity.mapWithKey fun _ x => x * activityScale
        increment := o.increment * activityScale }
    else
      { o with activity }
  if o.heap.contains v then
    o.updateHeap fun less heap => heap.rise less v
  else
    return o

/-- Makes later conflicts count for more. -/
def decay (o : Order) (rate : Float) : Order :=
  { o with increment := o.increment * (1.0 / rate) }

/-- Remembers the sign of a variable. -/
def savePhase (o : Order) (l : Lit) : Except Fault Order := do
  return { o with phase := ← o.phase.set l.var l.sign }

/-- Takes back the variable of a literal that has lost its value, and remembers its
sign if `save` is set. -/
def release (o : Order) (save : Bool) (p : Lit) : Except Fault Order := do
  if save then (← o.savePhase p).offer p.var else o.offer p.var

/-- May the variable be decided, and has it no value? -/
def isFree (o : Order) (t : Trail) (v : Var) : Except Fault Bool := do
  if (← t.value v) = .unknown then o.eligible.get v else return false

/-- Takes the top variable out of the heap, if there is one. -/
@[inline] def pop (o : Order) : Except Fault (Order × Option Var) :=
  let heap := o.heap
  let o := { o with heap := .empty }
  match heap.pop (before o.activity) with
  | .ok (heap, v) => .ok ({ o with heap }, v)
  | .error e => .error e

/-- Takes variables out of the heap up to the first that is free.  `n` is the
number of variables in the heap. -/
def popFree (t : Trail) : Nat → Order → Except Fault (Order × Option Var)
  | 0, o => .ok (o, none)
  | n + 1, o => do
      match ← o.pop with
      | (o, some v) => if ← o.isFree t v then return (o, some v) else popFree t n o
      | (o, none) => return (o, none)

/-- The variable at a random place of the heap. -/
def randomVarBy (r : Generator) (o : Order) : Except Fault (Order × Var) := do
  let (i, seed) := r.below o.seed o.heap.size
  if 0 ≤ i && i.toNat < o.heap.size then
    return ({ o with seed }, ← o.heap.key i.toNat)
  else
    throw .randomOutOfRange

/-- The sign with which a variable is decided. -/
def chooseSignBy (r : Generator) (o : Order) (v : Var) (randomPolarity : Bool) :
    Except Fault (Order × Bool) := do
  match ← o.preferred.get v with
  | .holds => return (o, true)
  | .fails => return (o, false)
  | .unknown =>
      if randomPolarity then
        let (x, seed) := r.next o.seed
        return ({ o with seed }, x < 0.5)
      else
        return (o, ← o.phase.get v)

/-- A random variable of the heap, every so often, if that one is free. -/
def pickRandomBy (r : Generator) (o : Order) (t : Trail) (frequency : Float) :
    Except Fault (Order × Option Var) := do
  let (x, seed) := r.next o.seed
  let o := { o with seed }
  if x < frequency && !o.heap.isEmpty then
    let (o, v) ← o.randomVarBy r
    if ← o.isFree t v then return (o, some v) else return (o, none)
  else
    return (o, none)

/-- The next variable to be decided, or none if every variable that may be decided
has a value.  Also says whether the variable was taken at random. -/
def pickVarBy (r : Generator) (o : Order) (t : Trail) (frequency : Float) :
    Except Fault (Order × Option Var × Bool) := do
  match ← o.pickRandomBy r t frequency with
  | (o, some v) => return (o, some v, true)
  | (o, none) =>
      let (o, choice) ← popFree t o.heap.size o
      return (o, choice, false)

/-- The next decision, or none if every variable that may be decided has a value, with the
random numbers of a generator.  Also says whether the variable was taken at random. -/
def pickBy (r : Generator) (o : Order) (t : Trail) (frequency : Float) (randomPolarity : Bool) :
    Except Fault (Order × Option Lit × Bool) := do
  match ← o.pickVarBy r t frequency with
  | (o, some v, random) =>
      let (o, sign) ← o.chooseSignBy r v randomPolarity
      return (o, some ⟨v, sign⟩, random)
  | (o, none, _) => return (o, none, false)

/-- Refills the heap with the variables that may be decided and have no value. -/
def rebuild (o : Order) (t : Trail) : Except Fault Order := do
  let free ← ((List.range t.numVars).map Var.mk).filterM fun v => do
    if ← o.eligible.get v then
      return (← t.value v) = .unknown
    else
      return false
  o.updateHeap fun less heap => heap.build less free

end Order

end Cdcl
