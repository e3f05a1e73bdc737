import Cdcl.Proofs.Searching
import Cdcl.Proofs.Success.Calls

/-!
# What is picked

No variable that may be decided gets lost: as long as it has no value it is in the heap, in
the states between calls and in those in which a search decides.  So a decision is picked
unless every such variable has a value.

This does not depend on the random numbers that are drawn: `Order.pickBy` picks with any
`Generator`.

* `Order.pickBy_settles` — what a pick comes to;
* `Reaches.candidates_held` — the heap and the picks in every state of a run.
-/

namespace Cdcl

namespace Order

variable {r : Generator} {o o' : Order} {t : Trail} {frequency : Float} {polarity random : Bool}

/-- What is picked is free, and nothing is picked only if nothing is free. -/
theorem pickBy_settles {choice : Option Lit} (c : o.Covers t none)
    (h : o.pickBy r t frequency polarity = .ok (o', choice, random)) :
    (choice = none ↔ ∀ v, ¬o.Free t v) ∧ ∀ l, choice = some l → o.Free t l.var := by
  obtain ⟨-, -, none_⟩ := pickBy_covers c h
  cases choice with
  | none => exact ⟨⟨fun _ => none_ rfl, fun _ => rfl⟩, nofun⟩
  | some l =>
      have free := free_pickBy h
      refine ⟨⟨nofun, fun none_ => absurd free (none_ l.var)⟩, ?_⟩
      rintro _ ⟨⟩
      exact free

end Order

namespace Solver

open Network (Regime)

variable {g : Regime} {r : Generator} {s s' : Solver} {v : Var} {options : Options}
  {allowed : Solver → Call → Prop} {calls : List Call}

/-! ## The heap of a solver -/

/-- The heap holds every variable that may be decided and has no value, and nothing else than
variables of the solver, each of them once. -/
structure HoldsFree (s : Solver) : Prop where
  free : ∀ {v}, s.order.eligible.get v = .ok true → s.value v = .ok .unknown →
    v ∈ s.order.heap.keys.toList
  known : ∀ v ∈ s.order.heap.keys.toList, v.index < s.numVars
  once : s.order.heap.keys.toList.Nodup
  contains : ∀ {v}, s.order.heap.contains v = true ↔ v ∈ s.order.heap.keys.toList

/-- What holds between calls keeps the free variables in the heap. -/
theorem Inv.holdsFree (i : s.Inv g s.pending none) (x : s.Sane) : s.HoldsFree where
  free eligible unknown := i.covers.heap.mem_keys.mpr (i.covers.free eligible unknown nofun)
  known v inside := by
    obtain ⟨i, there⟩ := Heap.mem_keys_iff.mp inside
    exact x.fitted.order.index_lt there
  once := i.covers.heap.nodup
  contains := i.covers.heap.mem_keys.symm

/-- Whatever the random numbers are, a decision is picked unless every variable that may be
decided has a value, and it is the decision of such a variable without a value. -/
structure PicksFree (s : Solver) : Prop where
  builtIn : s.pickBranch = s.pickBranchBy .standard
  failsOnly : ∀ {r : Generator}, r.Inside →
    FailsOnly (· = .incomparableActivities) (s.pickBranchBy r)
  none_iff : ∀ {r : Generator} {s' choice}, s.pickBranchBy r = .ok (s', choice) →
    (choice = none ↔
      ∀ v, s.order.eligible.get v = .ok true → s.value v ≠ .ok .unknown)
  picked : ∀ {r : Generator} {s' l}, s.pickBranchBy r = .ok (s', some l) →
    s.order.eligible.get l.var = .ok true ∧ s.litValue l = .ok .unknown

/-- The solver picks as its order does, and writes down what came of it. -/
theorem pickBranchBy_eq_ok {choice : Option Lit} (h : s.pickBranchBy r = .ok (s', choice)) :
    ∃ order random, s.order.pickBy r s.net.trail s.options.randomVarFreq
      s.options.randomPolarity = .ok (order, choice, random) := by
  obtain ⟨⟨order, choice₁, random⟩, picked, h⟩ := bind_eq_ok.mp h
  refine ⟨order, random, ?_⟩
  simp only at h
  split at h
  · cases h
    exact picked
  · cases h
    exact picked

/-- Whatever generator picks, it picks a free variable, unless none is left. -/
theorem Inv.picksFree (i : s.Inv g s.pending none) (x : s.Sane) : s.PicksFree where
  builtIn := rfl
  failsOnly inside := by
    refine .bind (Order.failsOnly_pickBy rfl (.inl inside) x.fitted.order rfl) fun _ _ => ?_
    exact .ite (fun _ => .ok _) fun _ => .ok _
  none_iff h := by
    obtain ⟨order, random, picked⟩ := pickBranchBy_eq_ok h
    rw [(Order.pickBy_settles i.covers picked).1]
    constructor
    · intro none_ v eligible unknown
      exact none_ v ⟨eligible, unknown⟩
    · intro all v free
      exact all v free.eligible free.unknown
  picked h := by
    obtain ⟨order, random, picked⟩ := pickBranchBy_eq_ok h
    obtain ⟨eligible, unknown⟩ := (Order.pickBy_settles i.covers picked).2 _ rfl
    exact ⟨eligible, Trail.litValue_eq_ok.mpr ⟨_, unknown, Truth.flipIf_eq_unknown.mpr rfl⟩⟩

/-- No variable that may be decided gets lost, neither between calls nor in a search. -/
theorem Reaches.candidates_held (run : Reaches options allowed calls s) :
    (s.HoldsFree ∧ s.PicksFree) ∧ ∀ s', s.Chooses s' → s'.HoldsFree ∧ s'.PicksFree := by
  have ready := run.standing
  have sane := run.sane
  refine ⟨⟨ready.inv.holdsFree sane, ready.inv.picksFree sane⟩, fun s' chooses => ?_⟩
  have running := chooses.running ready fun _ => trivial
  have sane' := chooses.sane ready (fun _ => trivial) sane
  have inv := running.inv
  rw [← running.idle] at inv
  exact ⟨inv.holdsFree sane', inv.picksFree sane'⟩

/-- Of three variables one is decided, and one may not be decided any more. -/
def oneLeft : List Call :=
  [.newVar {}, .newVar {}, .newVar {}, .decide ⟨⟨0⟩, true⟩, .setDecision ⟨2⟩ false]

/-- The one variable that is free is found, whatever is drawn at random. -/
theorem last_variable_picked : ∃ s, Reaches {} (fun _ _ => True) oneLeft s ∧ s.HoldsFree ∧
    ∀ {r s' choice}, s.pickBranchBy r = .ok (s', choice) → ∃ l, choice = some l ∧ l.var = ⟨1⟩ := by
  have found : ∃ s ∈ (create {} false none).toOption,
      ∃ s' ∈ s.playAll (fun _ _ => True) oneLeft, s'.numVars = 3 ∧
        (s'.order.eligible.get ⟨1⟩ = .ok true ∧ s'.value ⟨1⟩ = .ok .unknown) ∧
        (s'.value ⟨0⟩ = .ok .holds ∧ s'.order.eligible.get ⟨2⟩ = .ok false) := by
    decide +kernel
  obtain ⟨s, run, size, ⟨eligible, unknown⟩, holds, barred⟩ := exists_played found
  obtain ⟨⟨kept, picks⟩, -⟩ := run.candidates_held
  refine ⟨s, run, kept, fun {r s' choice} picked => ?_⟩
  cases choice with
  | none => exact absurd unknown ((picks.none_iff picked).mp rfl _ eligible)
  | some l =>
      obtain ⟨may, open_⟩ := picks.picked picked
      obtain ⟨x, read, same⟩ := Trail.litValue_eq_ok.mp open_
      have low : l.var.index < s.numVars := DenseMap.toIndex_lt read
      have value : s.value l.var = .ok .unknown := by
        rw [Truth.flipIf_eq_unknown.mp same] at read
        exact read
      refine ⟨l, rfl, ?_⟩
      obtain ⟨⟨i⟩, sign⟩ := l
      have which : i = 0 ∨ i = 1 ∨ i = 2 := by
        simp only [size] at low
        omega
      rcases which with rfl | rfl | rfl
      · cases holds.symm.trans value
      · rfl
      · cases barred.symm.trans may

end Solver

end Cdcl
