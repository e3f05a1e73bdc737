import Cdcl.Proofs.Lessons

/-!
# Unreliable variables in learnt clauses

A variable may be marked as unreliable between any two conflicts.  A clause that is learnt
afterwards mentions it only if it was decided, never if it was implied: the walk passes it
as asserting literal, and behind the asserting literal it is replaced by its premises.

The analysis ends with a test of just that for the literals behind the first.  So that
nothing is said of the test alone, the theorem is about `Solver.derive`, the analysis without
it.

* `Walked.admissible` — the walk stops only at an admissible literal;
* `gather_admissible`, `derive_admissible` — what is gathered, and what is made of it;
* `analyze_admissible` — the test never refuses, and all literals of a lesson are admissible.
-/

namespace Cdcl.Solver

variable {s s₁ s₂ s' : Solver} {r r' : Resolvent} {id : ClauseId}

/-! ## The asserting literal -/

/-- The walk goes on past a literal of the conflict level that may not be learnt, even if it
is the only one left. -/
theorem Walked.admissible {below others : List Lit} {p : Lit} {result : Option (Lit × List Lit)}
    (h : Walked s r below s' result) (some_ : result = some (p, others)) : s.Admissible p := by
  induction h with
  | pass _ _ ih => exact ih some_
  | @stop s s' r _ _ why reliable _ origin unmarked _ tested fine =>
      cases some_
      have k := (Tick.unmark unmarked).retains
      rw [← k.trail] at origin
      refine k.symm.admissible ⟨reliable, why, tested, origin, ?_⟩
      rwa [Bool.or_eq_true, decide_eq_true_eq]
  | root => cases some_
  | on _ turn _ ih => exact turn.ticks.retains.symm.admissible (ih some_)

/-- The literal with which the walk ends may be learnt. -/
theorem resolve_admissible {others : List Lit} {p : Lit}
    (h : s.resolve id = .ok (s', some (p, others))) : s.Retains s' ∧ s.Admissible p := by
  refine ⟨(resolve_ticks h).retains, ?_⟩
  obtain ⟨s₁, counted, h⟩ := bind_eq_ok.mp h
  obtain ⟨c, -, h⟩ := bind_eq_ok.mp h
  obtain ⟨⟨s₂, r₂⟩, absorbed, h⟩ := bind_eq_ok.mp h
  obtain ⟨⟨s₃, next_⟩, settled, h⟩ := bind_eq_ok.mp h
  have ticks : s.Ticks s₃ :=
    .head (.use counted) ((absorb_ticks absorbed).trans (settle_ticks settled))
  cases next_ with
  | none => cases h
  | some r₃ => exact ticks.retains.symm.admissible ((walked_of_ok h).admissible rfl)

/-! ## The whole clause -/

theorem gather_admissible {others : List Lit} {p : Lit}
    (h : s.gather id = .ok (s', some (p, others))) : s.Retains s' ∧ s.Admissible p := by
  obtain ⟨entry, -, -, resolving, -⟩ := gather_eq_ok h
  have k₀ : s.Retains (s.log (.analyze entry.place s.level)) := log_retains s _
  obtain ⟨k₁, asserting⟩ := resolve_admissible resolving
  exact ⟨k₀.trans k₁, k₀.symm.admissible asserting⟩

/-- Replacing and shortening leave admissible literals only, without the last test. -/
theorem derive_admissible {lesson : Lesson} (h : s.derive id = .ok (s', some lesson)) :
    s.Retains s' ∧ ∀ l ∈ lesson.asserting :: lesson.others, s.Admissible l := by
  obtain ⟨⟨s₁, gathered⟩, gathering, composed⟩ := bind_eq_ok.mp h
  cases gathered with
  | none => cases composed
  | some answer =>
      obtain ⟨p, others⟩ := answer
      obtain ⟨k₁, asserting⟩ := gather_admissible gathering
      obtain ⟨s₂, lits, marked, kept, final, level, replaced, minimized, arranged, cleared, -,
        same⟩ := compose_eq_ok composed
      cases same
      obtain ⟨fine, k₂, -⟩ := replaceUnreliable_admissible replaced
      have k := k₁.trans k₂
      obtain ⟨perm, -⟩ := latestFirst_spec arranged
      have k₃ := (clearMarks_ticks cleared).retains
      refine ⟨k.trans ⟨k₃.info, k₃.trail⟩, fun l hl => ?_⟩
      rcases List.mem_cons.mp hl with rfl | hl
      · exact asserting
      · have inside : l ∈ lits.toList := (minimize_sublist minimized).mem (perm.mem_iff.mp hl)
        exact k.symm.admissible (fine l (Array.mem_toList_iff.mp inside))

/-- Whatever the state, the clause in conflict, the flags and the minimization, each literal
of a clause that is learnt, the asserting one included, is of a variable that is reliable or
was decided.  Nothing of this is owed to the last test of the analysis, which never refuses a
clause. -/
theorem analyze_admissible (s : Solver) (id : ClauseId) :
    s.analyze id = s.derive id ∧
      ∀ s' lesson, s.derive id = .ok (s', some lesson) → s'.info = s.info ∧
        ∀ l ∈ learntClause (some lesson),
          s.isReliable l.var = .ok true ∨ s.net.trail.reasonOf l.var = .ok .decision := by
  refine ⟨?_, fun s' lesson h => ?_⟩
  · unfold analyze
    cases derived : s.derive id with
    | error fault => rfl
    | ok answer =>
        obtain ⟨s', _ | lesson⟩ := answer
        · rfl
        · obtain ⟨k, fine⟩ := derive_admissible derived
          have tested : s'.allAdmissible lesson.others = .ok true :=
            allAdmissible_of fun l hl => k.admissible (fine l (List.mem_cons_of_mem _ hl))
          have passes : testLesson (s', some lesson) = .ok (s', some lesson) :=
            bind_eq_ok.mpr ⟨true, tested, rfl⟩
          exact passes
  · obtain ⟨k, fine⟩ := derive_admissible h
    exact ⟨k.info, fun l hl => (fine l hl).cases⟩

/-- Two unreliable variables are implied, one at each level: the second alone would be left
of its level, and the first stands behind it. -/
def unreliableChain : List Call :=
  [.newVar {}, .newVar {}, .newVar {}, .newVar {}, .newVar {},
    .setReliable ⟨1⟩ false, .setReliable ⟨3⟩ false,
    .addClause [⟨⟨0⟩, false⟩, ⟨⟨1⟩, true⟩], .addClause [⟨⟨2⟩, false⟩, ⟨⟨3⟩, true⟩],
    .addClause [⟨⟨1⟩, false⟩, ⟨⟨3⟩, false⟩, ⟨⟨4⟩, true⟩],
    .addClause [⟨⟨1⟩, false⟩, ⟨⟨3⟩, false⟩, ⟨⟨4⟩, false⟩],
    .decide ⟨⟨0⟩, true⟩, .propagate, .decide ⟨⟨2⟩, true⟩, .propagate]

/-- Two literals that may not be learnt give way to the decision behind them. -/
theorem unreliable_chain_admissible :
    ∃ (s s' : Solver) (id : ClauseId) (lesson : Lesson), s.pending = some id ∧
      s.isReliable ⟨1⟩ = .ok false ∧ s.isReliable ⟨3⟩ = .ok false ∧
      s.derive id = .ok (s', some lesson) ∧
      learntClause (some lesson) = [⟨⟨2⟩, false⟩, ⟨⟨0⟩, false⟩] ∧
      ∀ l ∈ learntClause (some lesson),
        s.isReliable l.var = .ok true ∨ s.net.trail.reasonOf l.var = .ok .decision := by
  have found : ∃ s ∈ (create {} false none).toOption,
      ∃ s' ∈ s.playAll AddsAtRoot unreliableChain, s'.pending = some ⟨3⟩ ∧
        (∃ b ∈ (s'.isReliable ⟨1⟩).toOption, b = false) ∧
        (∃ b ∈ (s'.isReliable ⟨3⟩).toOption, b = false) ∧
        ∃ r ∈ (s'.derive ⟨3⟩).toOption, ∃ lesson ∈ r.2,
          learntClause (some lesson) = [⟨⟨2⟩, false⟩, ⟨⟨0⟩, false⟩] := by
    decide +kernel
  obtain ⟨s, -, pending, ⟨_, one, rfl⟩, ⟨_, three, rfl⟩, ⟨s', _⟩, derived, lesson, rfl, learnt⟩ :=
    exists_played found
  have derived := eq_ok_of_toOption derived
  exact ⟨s, s', ⟨3⟩, lesson, pending, eq_ok_of_toOption one, eq_ok_of_toOption three, derived,
    learnt, ((analyze_admissible s ⟨3⟩).2 s' lesson derived).2⟩

end Cdcl.Solver
