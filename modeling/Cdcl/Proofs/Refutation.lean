import Cdcl.Proofs.Rehearsing

/-!
# Refutations and consequences

What a solver says to follow does follow from the clauses that were submitted.

* `refuted_unsatisfiable` — a solver that was given its clauses at the root level answers
  that they cannot be satisfied only if that is so;
* `consequences_entailed` — of a solver that was given clauses at any level, each of which
  implied its first literal rightly, the clauses learnt and the facts follow.

The condition of the second cannot be left out.  A clause that is added above the root
level may imply its first literal although a literal behind the second place is true.
What is learnt through such a clause need not follow, and a formula that can be satisfied
may be given up.
-/

namespace Cdcl.Solver

open Network (Regime)

variable {options : Options} {calls : List Call} {s : Solver}

/-- Clauses are added at the root level. -/
def AddsAtRoot (s : Solver) (c : Call) : Prop := c.submits = true → s.level = 0

instance (s : Solver) (c : Call) : Decidable (s.AddsAtRoot c) :=
  inferInstanceAs (Decidable (c.submits = true → s.level = 0))

theorem addsAtRoot_of_silent {c : Call} (silent : c.submits = false) : s.AddsAtRoot c :=
  fun yes => absurd (silent.symm.trans yes) nofun

/-- A clause that is added above the root level implies its first literal only if no
literal behind the second place is true. -/
def AddsRightly (s : Solver) : Call → Prop
  | .addClause d => s.ok = true → 0 < s.level → s.AssertsRightly d
  | .load _ _ => s.level = 0
  | _ => True

instance (s : Solver) : (c : Call) → Decidable (s.AddsRightly c)
  | .addClause d =>
      inferInstanceAs (Decidable (s.ok = true → 0 < s.level → s.AssertsRightly d))
  | .load _ _ => inferInstanceAs (Decidable (s.level = 0))
  | .newVar _ | .varOfIndex _ | .solve | .simplify | .propagate | .resolveConflict | .decide _
  | .pushLevel | .cancelUntil _ | .setReliable _ _ | .setDecision _ _ | .setObserved _ _
  | .setBudget _ | .setInterrupt _ | .setStop _ => .isTrue trivial

/-- A clause that is added at the root level implies rightly. -/
theorem AddsAtRoot.rightly {c : Call} (h : s.AddsAtRoot c) : s.AddsRightly c := by
  cases c with
  | addClause d => exact fun _ high => absurd (h rfl) (Nat.ne_of_gt high)
  | load strict bs => exact h rfl
  | _ => trivial

/-- Clauses that imply rightly are what a sound regime asks for. -/
theorem AddsRightly.suits {c : Call} {s' : Solver} (h : s.AddsRightly c) :
    Suits (regimeOf calls True False fun _ => True) s c s' where
  adding d same _ := by
    subst same
    exact h
  loading strict bs same := by
    subst same
    exact .inl h
  landing on := on.1.elim

/-- A further call of a run in which clauses imply rightly. -/
theorem AddsRightly.call {c : Call} {fuel : Nat} {s' : Solver} {reply : Reply}
    (h : s.AddsRightly c) (r : Ready (regimeOf calls True False fun _ => True) s)
    (performed : s.perform fuel c = .ok (s', reply)) :
    Ready (regimeOf (calls ++ [c]) True False fun _ => True) s' ∧
      (c.refuted reply = true → s'.ok = false) :=
  r.call (fun _ _ _ => trivial) (fun on => on.elim) h.suits performed

/-- In a run in which clauses imply rightly, all that is derived follows. -/
theorem Reaches.ready (run : Reaches options AddsRightly calls s) :
    Ready (regimeOf calls True False fun _ => True) s := by
  induction run with
  | fresh created => exact ready_create created rfl
  | call _ fine performed before => exact (fine.call before performed).1

/-- If the clauses were added at the root level, and the solver is not all right or says
in answer to another call that they cannot be satisfied, then that is so. -/
theorem refuted_unsatisfiable (run : Reaches options AddsAtRoot calls s) :
    (s.ok = false → Unsatisfiable (submitted calls)) ∧
      ∀ {c fuel s' reply}, s.AddsAtRoot c → s.perform fuel c = .ok (s', reply) →
        c.refuted reply = true → Unsatisfiable (submitted (calls ++ [c])) := by
  have ready := (run.mono AddsAtRoot.rightly).ready
  refine ⟨ready.inv.refuted trivial, ?_⟩
  intro c fuel s' reply fine performed refuted
  obtain ⟨ready', failed⟩ := fine.rightly.call ready performed
  exact ready'.inv.refuted trivial (failed refuted)

/-- Does the solver answer to the call that the clauses cannot be satisfied? -/
def refutes (s : Solver) (c : Call) : Bool :=
  match s.perform 0 c with
  | .ok (_, reply) => c.refuted reply
  | .error _ => false

/-- A variable that has to be true and false is refuted. -/
theorem contradiction_refuted : ∃ s s' reply,
    Reaches {} AddsAtRoot [.newVar {}, .addClause [⟨⟨0⟩, true⟩]] s ∧
      s.perform 0 (.addClause [⟨⟨0⟩, false⟩]) = .ok (s', reply) ∧
      (Call.addClause [⟨⟨0⟩, false⟩]).refuted reply = true ∧
      Unsatisfiable (submitted ([.newVar {}, .addClause [⟨⟨0⟩, true⟩]] ++
        [.addClause [⟨⟨0⟩, false⟩]])) := by
  have found : ∃ s ∈ (create {} false none).toOption,
      ∃ s' ∈ s.playAll AddsAtRoot [.newVar {}, .addClause [⟨⟨0⟩, true⟩]],
        s'.level = 0 ∧ s'.refutes (.addClause [⟨⟨0⟩, false⟩]) = true := by
    decide +kernel
  obtain ⟨s, run, root, refuted⟩ := exists_played found
  unfold refutes at refuted
  split at refuted
  next s' reply performed =>
    have fine : s.AddsAtRoot (.addClause [⟨⟨0⟩, false⟩]) := fun _ => root
    exact ⟨s, s', reply, run, performed, refuted,
      (refuted_unsatisfiable run).2 fine performed refuted⟩
  next => cases refuted

/-- If clauses added above the root level implied rightly, then the learnt clauses that
are stored, those that were told, and the facts of the root level follow from the
clauses.  A further clause that is added above the root level implies rightly if and only
if the reasons hold afterwards. -/
theorem consequences_entailed (run : Reaches options AddsRightly calls s) :
    (∀ {id c}, s.net.body? id = some c → c.learnt = true → Entails (submitted calls) c.lits) ∧
      (∀ c ∈ s.net.journal.lessons, Entails (submitted calls) c) ∧
      (∀ l ∈ s.proved, Entails (submitted calls) [l]) ∧
      (s.ok = false → Unsatisfiable (submitted calls)) ∧
      ∀ {d fuel s' reply}, s.ok = true → 0 < s.level →
        s.perform fuel (.addClause d) = .ok (s', reply) →
        (s.AssertsRightly d ↔ s'.net.Justified) := by
  have ready := run.ready
  have sound := ready.inv.net.sound trivial
  refine ⟨fun stored _ => sound.clauses stored, fun c told => sound.lessons told, ?_,
    ready.inv.refuted trivial, ?_⟩
  · intro l fact
    have root : s.proved = s.net.trail.upTo 0 := Trail.root_eq s.net.trail
    exact sound.root (root ▸ fact)
  · intro d fuel s' reply ok high performed
    constructor
    · intro rightly i l r ps assigned behind
      have fine : s.AddsRightly (.addClause d) := fun _ _ => rightly
      have sound' := (fine.call ready performed).1.inv.net.sound trivial
      exact (sound'.reasons assigned behind).1
    · intro justified
      have free : Reaches options (fun _ _ => True) calls s := run.mono fun _ => trivial
      have w' := (free.call trivial performed).standing.inv.net.wf.trail
      obtain ⟨⟨s₁, answer, left⟩, added, done⟩ := bind_eq_ok.mp performed
      cases done
      exact ready.inv.assertsRightly_of_justified ok high w' added justified

/-- Two decisions with everything propagated between them.  No clause forces anything yet. -/
def secondDecision : List Call :=
  [.newVar {}, .newVar {}, .newVar {}, .newVar {},
    .addClause [⟨⟨0⟩, false⟩, ⟨⟨2⟩, false⟩, ⟨⟨3⟩, true⟩],
    .addClause [⟨⟨0⟩, false⟩, ⟨⟨2⟩, false⟩, ⟨⟨3⟩, false⟩],
    .decide ⟨⟨1⟩, true⟩, .propagate, .decide ⟨⟨2⟩, true⟩, .propagate]

/-- A clause that implies variable 0 there; its other literals are false, at two levels. -/
def impliedThere : List Lit := [⟨⟨0⟩, true⟩, ⟨⟨1⟩, false⟩, ⟨⟨2⟩, false⟩]

/-- The clause is a reason of the conflict that follows.  What is learnt from it is met by a
clause that is false when it is added, and a fact is left. -/
def factRaised : List Call :=
  [.addClause impliedThere, .propagate, .resolveConflict,
    .addClause [⟨⟨1⟩, false⟩, ⟨⟨2⟩, true⟩], .decide ⟨⟨1⟩, true⟩, .propagate, .resolveConflict]

/-- Each thing learnt from the clause that was added above the root level follows. -/
theorem raised_fact_entailed : ∃ s s₁ reply s' c, Reaches {} AddsRightly secondDecision s ∧
    s.level = 2 ∧ (s.behindImplied impliedThere).length = 1 ∧ s.AssertsRightly impliedThere ∧
    s.perform 0 (.addClause impliedThere) = .ok (s₁, reply) ∧ s₁.net.Justified ∧
    Reaches {} AddsRightly (secondDecision ++ factRaised) s' ∧
    s'.net.body? ⟨3⟩ = some c ∧ c.learnt = true ∧ c.lits = [⟨⟨2⟩, false⟩, ⟨⟨1⟩, false⟩] ∧
    Entails (submitted (secondDecision ++ factRaised)) c.lits ∧ ⟨⟨1⟩, false⟩ ∈ s'.proved ∧
    Entails (submitted (secondDecision ++ factRaised)) [⟨⟨1⟩, false⟩] := by
  have found : ∃ s ∈ (create {} false none).toOption, ∃ s' ∈ s.playAll AddsRightly secondDecision,
      (s'.ok = true ∧ s'.level = 2 ∧ (s'.behindInOrder impliedThere).length = 1 ∧
        s'.AssertsRightly impliedThere ∧
        (s'.play 0 (.addClause impliedThere)).toOption.isSome = true) ∧
      ∃ s'' ∈ s'.playAll AddsRightly factRaised,
        (∃ c ∈ s''.net.body? ⟨3⟩, c.learnt = true ∧ c.lits = [⟨⟨2⟩, false⟩, ⟨⟨1⟩, false⟩]) ∧
        (⟨⟨1⟩, false⟩ : Lit) ∈ s''.proved := by
    set_option synthInstance.maxSize 512 in decide +kernel
  obtain ⟨s, run, ⟨ok, level, behind, rightly, some_⟩, s', played, ⟨c, stored, learnt, lits⟩,
    fact⟩ := exists_played found
  obtain ⟨⟨s₁, reply⟩, performed⟩ := Option.isSome_iff_exists.mp some_
  have performed := play_eq.symm.trans (eq_ok_of_toOption performed)
  have run' := run.playAll played
  obtain ⟨-, -, -, -, exact_⟩ := consequences_entailed run
  obtain ⟨lessons, -, facts, -, -⟩ := consequences_entailed run'
  exact ⟨s, s₁, reply, s', c, run, level, behindImplied_eq s _ ▸ behind, rightly, performed,
    (exact_ ok (by omega) performed).mp rightly, run', stored, learnt, lits,
    lessons stored learnt, fact, facts _ fact⟩

end Cdcl.Solver
