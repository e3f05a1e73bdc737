import Cdcl.Proofs.Lessons
import Cdcl.Proofs.Success.Learning

/-!
# Progress from a conflict

A pending conflict is resolved one level down or more.  Either it follows from the root
level, and the clauses cannot be satisfied, or the clause that is learnt from it has one
literal of a level above those of all the others.  Once the levels above the latest of the
others are gone, the clause implies that literal.

* `Lesson.Asserts` — what the analysis says of its lesson and the trail;
* `assertLesson_trail` — the trail is cut back and gets the asserting literal;
* `Asserted` — what comes of it;
* `resolveConflict_asserts` — resolving a pending conflict in a run.
-/

namespace Cdcl

/-- The clause of the lesson is false, and its asserting literal became so at a later level
than the others, of which one of the latest comes first.  Its level is that of the lesson. -/
structure Lesson.Asserts (l : Lesson) (t : Trail) : Prop where
  once : ((l.asserting :: l.others).map Lit.var).Nodup
  false_ : ∀ q ∈ l.asserting :: l.others, t.litValue q = .ok .fails
  later : ∃ k, t.levelOf l.asserting.var = .ok k ∧ 0 < k ∧
    ∀ q ∈ l.others, ∃ j, t.levelOf q.var = .ok j ∧ 0 < j ∧ j < k
  unit : l.others = [] → l.level = 0
  greatest : ∀ q rest, l.others = q :: rest → t.levelOf q.var = .ok l.level ∧
    ∀ q' ∈ l.others, ∃ j, t.levelOf q'.var = .ok j ∧ j ≤ l.level

namespace Solver

open Network (Regime)

variable {g : Regime} {s s' : Solver} {l : Lesson} {id : ClauseId} {options : Options}
  {calls : List Call}

/-- What the analysis promises makes the lesson assert its first literal. -/
theorem Taught.asserts (t : Taught g s l) (w : s.net.trail.WF)
    (single : l.others = [] → l.level = 0) : l.Asserts s.net.trail where
  once := t.once
  false_ q hq := w.fails_iff.mpr (t.false_ q hq)
  later := by
    obtain ⟨k, levelOf, above⟩ := t.above
    refine ⟨k, levelOf, Nat.zero_lt_of_lt above, fun q hq => ?_⟩
    obtain ⟨j, levelOf', positive, le⟩ := t.below q hq
    exact ⟨j, levelOf', positive, Nat.lt_of_le_of_lt le above⟩
  unit := single
  greatest q rest first := by
    refine ⟨t.head q (by rw [first]; rfl), fun q' hq => ?_⟩
    obtain ⟨j, levelOf, -, le⟩ := t.below q' hq
    exact ⟨j, levelOf, le⟩

/-- The solver has gone back to the level of the lesson, where its clause implies the
asserting literal. -/
structure Asserted (s : Solver) (l : Lesson) (s' : Solver) : Prop where
  level : s'.level = l.level
  lower : l.level < s.level
  ok : s'.ok = s.ok
  true_ : s'.litValue l.asserting = .ok .holds
  here : s'.net.trail.levelOf l.asserting.var = .ok l.level
  false_ : ∀ q ∈ l.others, s'.litValue q = .ok .fails

/-- The trail is cut back to the level of the lesson, and one literal is pushed. -/
theorem assertLesson_trail (w : s.net.trail.WF) (c : s.order.Covers s.net.trail none)
    (lower : l.level < s.level) (h : s.assertLesson l = .ok s') :
    s'.ok = s.ok ∧ ∃ t why, s.net.trail.CutBack l.level t ∧
      t.push l.asserting why = .ok s'.net.trail := by
  obtain ⟨s₁, cancelled, h⟩ := bind_eq_ok.mp h
  rcases cancelUntil_cases (s := s.log _) w c cancelled with ⟨high, -⟩ | ⟨-, back⟩
  · exact absurd lower (Nat.not_lt_of_le high)
  have ok : s₁.ok = s.ok := back.ok
  cases others : l.others with
  | nil =>
      rw [others] at h
      obtain ⟨_, -, h⟩ := bind_eq_ok.mp h
      obtain ⟨n, assigned, rfl⟩ := updateNet_eq_ok.mp h
      exact ⟨ok, s₁.net.trail, _, back.net.trail, (Network.enqueued assigned).trail⟩
  | cons q rest =>
      rw [others] at h
      obtain ⟨⟨n₁, id⟩, added, h⟩ := bind_eq_ok.mp h
      obtain ⟨n₂, bumped, h⟩ := bind_eq_ok.mp h
      obtain ⟨c', -, h⟩ := bind_eq_ok.mp h
      obtain ⟨n, assigned, h⟩ := bind_eq_ok.mp h
      cases h
      obtain ⟨c, -, -, stores⟩ := Network.stores added
      have pushed := (Network.enqueued assigned).trail
      rw [(Network.idles_bumpClause bumped).trail, stores.trail] at pushed
      exact ⟨ok, s₁.net.trail, _, back.net.trail, pushed⟩

/-- A lesson that was taught is asserted. -/
theorem assertLesson_asserted {conflict : Option ClauseId} (i : s.Inv g conflict none)
    (t : Taught g s l) (h : s.assertLesson l = .ok s') : Asserted s l s' := by
  have w := i.core.trail
  have lower := t.lower w
  obtain ⟨ok, t₁, why, cut, pushed⟩ := assertLesson_trail w i.covers lower h
  have w₁ := cut.wf w
  have w' := w₁.push pushed
  have level : s'.level = l.level := (Trail.level_push pushed).trans cut.level
  refine ⟨level, lower, ok, ?_, cut.level ▸ Trail.levelOf_push pushed, fun q hq => ?_⟩
  · exact w'.holds_iff.mpr ((Trail.mem_push pushed).mpr (.inr rfl))
  · exact w'.fails_iff.mpr ((Trail.mem_push pushed).mpr (.inl ((t.after w cut).1 q hq)))

theorem Asserted.congr {s₁ : Solver} (a : Asserted s₁ l s') (level : s₁.level = s.level)
    (ok : s₁.ok = s.ok) : Asserted s l s' :=
  ⟨a.level, level ▸ a.lower, a.ok.trans ok, a.true_, a.here, a.false_⟩

/-- Learning ends at the root level with refuted clauses, or asserts the lesson. -/
theorem learn_asserts (i : s.Inv g (some id) none) (high : 0 < s.level)
    (h : s.learn id = .ok s') : ∃ s₁ result, s.analyze id = .ok (s₁, result) ∧
      (result = none → s'.level = 0 ∧ s'.ok = false) ∧
      ∀ l, result = some l → Asserted s l s' := by
  obtain ⟨⟨s₁, result⟩, analyzed, h⟩ := bind_eq_ok.mp h
  obtain ⟨k, concludes⟩ := analyze_taught i.footing i.rejects analyzed
  have i₁ := k.inv i
  refine ⟨s₁, result, analyzed, ?_⟩
  cases result with
  | none =>
      obtain ⟨s₂, asserted, h⟩ := bind_eq_ok.mp h
      cases h
      have high₁ : 0 < s₁.level := k.level ▸ high
      obtain ⟨-, -, level, ok⟩ := i₁.assertRootConflict high₁ concludes asserted
      exact ⟨fun _ => ⟨level, ok⟩, nofun⟩
  | some l =>
      obtain ⟨s₂, asserted, h⟩ := bind_eq_ok.mp h
      cases h
      have t : Taught g s₁ l := concludes
      refine ⟨nofun, ?_⟩
      rintro l' same
      cases same
      have done : Asserted s₁ l s₂.decayActivities := by
        obtain ⟨level, lower, ok, true_, here, false_⟩ := assertLesson_asserted i₁ t asserted
        exact ⟨level, lower, ok, true_, here, false_⟩
      exact done.congr k.level k.ok

/-- The state in which the pending conflict is analysed. -/
def taken (s : Solver) : Solver := { s with pending := none }.countConflict

/-- If clauses were added at the root level, a pending conflict is resolved, however early
levels were begun.  The analysis reaches no decision and leaves no mark; all that may stop it
is an activity that is not a number, and all that may stop the call is what lies outside of
the solver.  Either the conflict follows from the root level and the clauses are refuted, or
a clause is learnt that implies its asserting literal at a lower level. -/
theorem resolveConflict_asserts (run : Reaches options AddsAtRoot calls s)
    (pending : s.pending = some id) :
    (∀ f, s.taken.analyze id = .error f → f = .incomparableActivities) ∧
      (∀ f, s.resolveConflict = .error f → f.Excused) ∧
      (∀ s₁ result, s.taken.analyze id = .ok (s₁, result) → Flags.isClear s₁.seen = true ∧
        ∀ l, result = some l → l.Asserts s.net.trail) ∧
      ∀ s' b, s.resolveConflict = .ok (s', b) → b = s'.ok ∧ s'.pending = none ∧
        ∃ s₁ result, s.taken.analyze id = .ok (s₁, result) ∧
          (result = none → s'.level = 0 ∧ s'.ok = false) ∧
          ∀ l, result = some l → Asserted s l s' := by
  have r := (run.mono AddsAtRoot.rightly).ready
  have x := run.sane
  have i := r.inv
  rw [pending] at i
  have i₀ : s.taken.Inv _ (some id) none := ⟨i.net, i.refutes, i.covers, i.refuted⟩
  have x₀ : s.taken.Sane := x.congr rfl rfl rfl rfl (countConflict_moves s).counted
  have poised : Poised _ s.taken := ⟨i₀.footing, i₀.core, x₀.sturdy, x₀.fitted⟩
  have high : 0 < s.level := by
    refine Nat.pos_of_ne_zero fun root => ?_
    cases pending.symm.trans (r.idle root)
  refine ⟨?_, ?_, fun s₁ result analyzed => ?_, fun s' b h => ?_⟩
  · exact failsOnly_analyze rfl trivial poised i₀.rejects x₀.clear
  · exact (resolveConflict_sane (fun _ excused => excused) trivial r x).failsOnly
  · refine ⟨clear_analyze i₀.footing i₀.rejects analyzed, ?_⟩
    rintro l rfl
    obtain ⟨k, concludes⟩ := analyze_taught i₀.footing i₀.rejects analyzed
    have t : Taught _ s₁ l := concludes
    have trail : s₁.net.trail = s.net.trail := k.net.trail
    exact trail ▸ t.asserts (k.inv i₀).core.trail (analyze_unit analyzed)
  · obtain ⟨-, idle, -, answers⟩ :=
      r.inv.resolveConflict (fun _ => high) (fun on => on.elim) h
    unfold Solver.resolveConflict at h
    rw [pending] at h
    obtain ⟨_, -, h⟩ := bind_eq_ok.mp h
    obtain ⟨s₂, learnt, h⟩ := bind_eq_ok.mp h
    cases h
    obtain ⟨s₁, result, analyzed, refutes, asserts⟩ := learn_asserts i₀ high learnt
    exact ⟨answers, idle, s₁, result, analyzed, refutes,
      fun l same => (asserts l same).congr rfl rfl⟩

/-- Four levels are begun before a clause over the first three of them is found to be false. -/
def lateClash : List Call :=
  [.newVar {}, .newVar {}, .newVar {},
    .addClause [⟨⟨0⟩, false⟩, ⟨⟨1⟩, false⟩, ⟨⟨2⟩, false⟩],
    .decide ⟨⟨0⟩, true⟩, .decide ⟨⟨1⟩, true⟩, .decide ⟨⟨2⟩, true⟩, .pushLevel, .propagate]

/-- A second level is begun before the decision of the first one is propagated, and what it
implies there may not be learnt. -/
def lateFact : List Call :=
  [.newVar {}, .newVar {}, .setReliable ⟨1⟩ false,
    .addClause [⟨⟨0⟩, false⟩, ⟨⟨1⟩, true⟩], .addClause [⟨⟨0⟩, false⟩, ⟨⟨1⟩, false⟩],
    .decide ⟨⟨0⟩, true⟩, .pushLevel, .propagate]

/-- A lesson of three literals goes back two levels, and one of a single literal goes back to the
root level. -/
theorem late_clashes_assert :
    (∃ (s s₁ : Solver) (id : ClauseId) (l : Lesson), Reaches {} AddsAtRoot lateClash s ∧
      s.pending = some id ∧ s.level = 4 ∧ s.taken.analyze id = .ok (s₁, some l) ∧
      learntClause (some l) = [⟨⟨2⟩, false⟩, ⟨⟨1⟩, false⟩, ⟨⟨0⟩, false⟩] ∧ l.level = 2 ∧
      l.Asserts s.net.trail) ∧
    ∃ (s s' : Solver) (id : ClauseId) (l : Lesson), Reaches {} AddsAtRoot lateFact s ∧
      s.pending = some id ∧ s.level = 2 ∧ s.resolveConflict = .ok (s', true) ∧
      learntClause (some l) = [⟨⟨0⟩, false⟩] ∧ Asserted s l s' := by
  have clash : ∃ s ∈ (create {} false none).toOption, ∃ s' ∈ s.playAll AddsAtRoot lateClash,
      s'.pending = some ⟨0⟩ ∧ s'.level = 4 ∧ ∃ r ∈ (s'.taken.analyze ⟨0⟩).toOption, ∃ l ∈ r.2,
        learntClause (some l) = [⟨⟨2⟩, false⟩, ⟨⟨1⟩, false⟩, ⟨⟨0⟩, false⟩] ∧ l.level = 2 := by
    decide +kernel
  have fact : ∃ s ∈ (create {} false none).toOption, ∃ s' ∈ s.playAll AddsAtRoot lateFact,
      s'.pending = some ⟨1⟩ ∧ s'.level = 2 ∧ (∃ r ∈ (s'.taken.analyze ⟨1⟩).toOption, ∃ l ∈ r.2,
        learntClause (some l) = [⟨⟨0⟩, false⟩]) ∧
        ∃ r ∈ s'.resolveConflict.toOption, r.2 = true := by
    decide +kernel
  refine ⟨?_, ?_⟩
  · obtain ⟨s, run, pending, high, ⟨s₁, _⟩, analyzed, l, rfl, learnt, level⟩ := exists_played clash
    have analyzed := eq_ok_of_toOption analyzed
    obtain ⟨-, -, teaches, -⟩ := resolveConflict_asserts run pending
    exact ⟨s, s₁, ⟨0⟩, l, run, pending, high, analyzed, learnt, level,
      (teaches _ _ analyzed).2 l rfl⟩
  · obtain ⟨s, run, pending, high, ⟨⟨s₁, _⟩, analyzed, l, rfl, learnt⟩, ⟨s', _⟩, resolved, rfl⟩ :=
      exists_played fact
    have analyzed := eq_ok_of_toOption analyzed
    have resolved := eq_ok_of_toOption resolved
    obtain ⟨-, -, -, moves⟩ := resolveConflict_asserts run pending
    obtain ⟨-, -, s₂, result, again, -, asserted⟩ := moves s' true resolved
    cases analyzed.symm.trans again
    exact ⟨s, s', ⟨1⟩, l, run, pending, high, resolved, learnt, asserted l rfl⟩

end Solver

end Cdcl
