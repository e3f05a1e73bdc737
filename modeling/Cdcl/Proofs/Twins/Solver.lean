import Cdcl.Proofs.Twins.Network
import Cdcl.Solver.Intake
import Cdcl.Solver.Learning

/-!
# The operations of a solver, side by side

Two solvers that differ in their arenas and journals, and in the share of dead words that
they put up with, stay so in everything that does not compact the arena.

* `Solver.Twin` — what may differ;
* `Twin.cancelUntil`, `Twin.propagate` — levels;
* `Twin.analyze`, `Twin.learn`, `Twin.resolveConflict` — learning from a conflict;
* `Twin.addClauseReporting` — adding a clause.
-/

namespace Cdcl.Solver

variable {s s' : Solver} {id : ClauseId} {l p : Lit} {v : Var} {k : Nat} {ls : List Lit}

/-- The solvers differ in their arenas and journals, and in the share of dead words at which
the arena is compacted.  The rest is the same: the trail, the rows of clauses and the watch
lists, whose names stand for the same clauses in both, the order, the model, and what is
counted. -/
inductive Twin (s : Solver) : Solver → Prop
  | mk {fraction : Float} {net : Network} : s.net.Twin net →
      Twin s { s with options := { s.options with garbageFraction := fraction }, net }

/-- The same, with journals that differ as far as the relation lets them. -/
inductive Apart (J : Journal → Journal → Prop) (s : Solver) : Solver → Prop
  | mk {fraction : Float} {net : Network} : s.net.Apart J net →
      Apart J s { s with options := { s.options with garbageFraction := fraction }, net }

namespace Apart

variable {J : Journal → Journal → Prop}

theorem twin (a : s.Apart Journal.Twin s') : s.Twin s' := by
  obtain ⟨a⟩ := a
  exact .mk a.twin

theorem net (a : s.Apart J s') : s.net.Apart J s'.net := by
  obtain ⟨a⟩ := a
  exact a

theorem log {m : Message} (j : Journal.Lockstep J) (a : s.Apart J s') :
    (s.log m).Apart J (s'.log m) := by
  obtain ⟨a⟩ := a
  exact .mk (a.log j)

theorem level (a : s.Apart J s') : s'.level = s.level := congrArg Trail.level a.net.trail

theorem backtrack (a : s.Apart J s') : Jointly (Apart J) (s.backtrack k) (s'.backtrack k) := by
  obtain ⟨⟨arena, journal⟩⟩ := a
  refine .same fun cut _ => .same fun last _ => .same fun count _ => ?_
  exact .same fun (trail, order) _ => .ok (.mk (.mk arena journal))

theorem cancelUntil (j : Journal.Lockstep J) (a : s.Apart J s') :
    Jointly (Apart J) (s.cancelUntil k) (s'.cancelUntil k) := by
  unfold Solver.cancelUntil
  rw [a.level]
  refine .ite (fun _ => ?_) fun _ => .ok a
  refine .bind (a.log j).backtrack fun s₁ s₁' ⟨a₁⟩ _ => ?_
  exact .ok (.mk a₁)

/-- The same literals are assigned, and the same clause is found false. -/
theorem propagateAll (j : Journal.Lockstep J) (a : s.Apart J s') :
    Jointly (Beside (Apart J)) s.propagateAll s'.propagateAll := by
  obtain ⟨a⟩ := a
  refine .step (a.propagate j) fun n m (conflict, count) a₁ _ => ?_
  exact .ok ⟨.mk a₁, rfl⟩

theorem assertUnit (j : Journal.Lockstep J) (a : s.Apart J s') :
    Jointly (Beside (Apart J)) (s.assertUnit l) (s'.assertUnit l) := by
  have assigns : Jointly (Apart J) (s.updateNet (·.enqueue l .decision))
      (s'.updateNet (·.enqueue l .decision)) := by
    obtain ⟨a⟩ := a
    intro s₁ s₁' left right
    obtain ⟨n, here, rfl⟩ := updateNet_eq_ok.mp left
    obtain ⟨m, there, rfl⟩ := updateNet_eq_ok.mp right
    exact .mk (a.enqueue j n m here there)
  refine .bind assigns fun s₁ s₁' a₁ _ => ?_
  refine .step (a₁.propagateAll j) fun s₂ s₂' conflict ⟨a₂⟩ _ => ?_
  cases conflict with
  | none => exact .ok ⟨.mk a₂, rfl⟩
  | some id => exact .ok ⟨.mk a₂, rfl⟩

end Apart

namespace Twin

theorem apart (t : s.Twin s') : s.Apart Journal.Twin s' := by
  obtain ⟨t⟩ := t
  exact .mk t.apart

theorem net (t : s.Twin s') : s.net.Twin s'.net := by
  obtain ⟨t⟩ := t
  exact t

theorem withNet {n m : Network} (t : s.Twin s') (u : n.Twin m) :
    Twin { s with net := n } { s' with net := m } := by
  obtain ⟨-⟩ := t
  exact .mk u

theorem log {m : Message} (t : s.Twin s') : (s.log m).Twin (s'.log m) := t.withNet t.net.log

theorem report {e : Event} (t : s.Twin s') : (s.report e).Twin (s'.report e) :=
  t.withNet t.net.report

/-- An operation that keeps networks twins, applied in both solvers. -/
theorem updateNet {f : Network → Except Fault Network} (t : s.Twin s')
    (kept : ∀ {n m}, n.Twin m → Jointly Network.Twin (f n) (f m)) :
    Jointly Twin (s.updateNet f) (s'.updateNet f) := by
  intro a b left right
  obtain ⟨n, here, rfl⟩ := updateNet_eq_ok.mp left
  obtain ⟨m, there, rfl⟩ := updateNet_eq_ok.mp right
  exact t.withNet (kept t.net n m here there)

theorem updateOrder {f : Order → Except Fault Order} (t : s.Twin s') :
    Jointly Twin (s.updateOrder f) (s'.updateOrder f) := by
  obtain ⟨t⟩ := t
  intro a b left right
  obtain ⟨order, here, rfl⟩ := updateOrder_eq_ok.mp left
  obtain ⟨order', there, rfl⟩ := updateOrder_eq_ok.mp right
  cases here.symm.trans there
  exact .mk t

theorem level (t : s.Twin s') : s'.level = s.level := congrArg Trail.level t.net.trail

theorem isReliable (t : s.Twin s') : s'.isReliable v = s.isReliable v := by
  cases t
  rfl

/-! ## Levels -/

theorem pushLevel (t : s.Twin s') : s.pushLevel.Twin s'.pushLevel := by
  obtain ⟨⟨arena, journal⟩⟩ := t
  exact log (.mk (.mk arena journal))

theorem decide (t : s.Twin s') : Jointly Twin (s.decide p) (s'.decide p) := by
  obtain ⟨⟨arena, journal⟩⟩ := t
  refine .same fun value _ => .same fun _ _ => ?_
  exact updateNet (log (pushLevel (.mk (.mk arena journal)))) fun u => u.enqueue

theorem cancelUntil (t : s.Twin s') : Jointly Twin (s.cancelUntil k) (s'.cancelUntil k) :=
  .mono Apart.twin (t.apart.cancelUntil Journal.Twin.lockstep)

theorem propagateAll (t : s.Twin s') : Jointly (Beside Twin) s.propagateAll s'.propagateAll :=
  .mono (fun both => ⟨both.1.twin, both.2⟩) (t.apart.propagateAll Journal.Twin.lockstep)

theorem propagate (t : s.Twin s') : Jointly (Beside Twin) s.propagate s'.propagate := by
  have all := t.propagateAll
  obtain ⟨⟨arena, journal⟩⟩ := t
  refine .ite (fun _ => .ok ⟨.mk (.mk arena journal), rfl⟩) fun _ => ?_
  refine .step all fun s₁ s₁' conflict ⟨⟨arena, journal⟩⟩ _ => ?_
  cases conflict with
  | none => exact .ok ⟨.mk (.mk arena journal), rfl⟩
  | some id =>
      refine .ite (fun _ => ?_) fun _ => ?_
      · exact .ok ⟨.mk (.mk arena journal), rfl⟩
      · exact .ok ⟨.mk (.mk arena journal), rfl⟩

/-! ## Analysis -/

theorem mark (t : s.Twin s') : Jointly Twin (s.mark v) (s'.mark v) := by
  obtain ⟨t⟩ := t
  exact .same fun seen _ => .ok (.mk t)

theorem unmark (t : s.Twin s') : Jointly Twin (s.unmark v) (s'.unmark v) := by
  obtain ⟨t⟩ := t
  exact .same fun seen _ => .ok (.mk t)

/-- The same variables are marked, and the same literals gathered. -/
theorem absorb {r : Resolvent} {qs : List Lit} (t : s.Twin s') :
    Jointly (Beside Twin) (s.absorb r qs) (s'.absorb r qs) := by
  induction qs generalizing s s' r with
  | nil => exact .ok ⟨t, rfl⟩
  | cons q qs ih =>
      obtain ⟨⟨arena, journal⟩⟩ := t
      refine .same fun level _ => .same fun _ _ => .same fun marked _ => .ite (fun _ => ?_)
        fun _ => ?_
      · refine .bind (updateOrder (.mk (.mk arena journal))) fun s₁ s₁' t₁ _ => ?_
        refine .bind t₁.mark fun s₂ s₂' t₂ _ => .ite (fun _ => ?_) fun _ => ?_
        · exact ih t₂
        · exact ih t₂
      · exact ih (.mk (.mk arena journal))

/-- The walk goes on at the same level. -/
theorem settle {r : Resolvent} (t : s.Twin s') :
    Jointly (Beside Twin) (s.settle r) (s'.settle r) := by
  obtain ⟨⟨arena, journal⟩⟩ := t
  refine .ite (fun _ => .ok ⟨.mk (.mk arena journal), rfl⟩) fun _ => .same fun level _ => ?_
  refine .ite (fun _ => .same fun _ _ => ?_) fun _ => .same fun (pending, others) _ => ?_
  · exact .ok ⟨log (.mk (.mk arena journal)), rfl⟩
  · exact .ok ⟨log (.mk (.mk arena journal)), rfl⟩

theorem countUse (t : s.Twin s') : Jointly Twin (s.countUse id) (s'.countUse id) := by
  refine .read t.net.clause fun c _ => .ite (fun _ => ?_) fun _ => .ok t
  exact t.updateNet fun u => u.bumpClause

theorem explain {pending : Nat} {r : Reason} (t : s.Twin s') :
    Jointly (Beside Twin) (s.explain p pending r) (s'.explain p pending r) := by
  cases r with
  | decision => exact .error
  | binary a => exact .ok ⟨t, rfl⟩
  | ternary a b => exact .ok ⟨t, rfl⟩
  | clause id =>
      refine .bind t.countUse fun s₁ s₁' t₁ _ => .read t₁.net.clause fun c _ => ?_
      exact .same fun _ _ => .ok ⟨t₁, rfl⟩

/-- The walks meet the same literals. -/
theorem walk {r : Resolvent} {ps : List Lit} (t : s.Twin s') :
    Jointly (Beside Twin) (s.walk r ps) (s'.walk r ps) := by
  induction ps generalizing s s' r with
  | nil => exact .error
  | cons p below ih =>
      obtain ⟨⟨arena, journal⟩⟩ := t
      refine .same fun marked _ => .ite (fun _ => ?_) fun _ => ih (.mk (.mk arena journal))
      refine .same fun reason _ => ?_
      refine .bind (unmark (.mk (.mk arena journal))) fun s₁ s₁' t₁ _ => .same fun pending _ => ?_
      refine .read t₁.isReliable fun reliable _ => .ite (fun _ => .ok ⟨t₁, rfl⟩) fun _ => ?_
      have t₂ : Twin (if pending = 0 then s₁.log (.skipUnreliable p) else s₁)
          (if pending = 0 then s₁'.log (.skipUnreliable p) else s₁') := by
        split
        · exact t₁.log
        · exact t₁
      refine .step t₂.explain fun s₃ s₃' lits t₃ _ => .step t₃.absorb fun s₄ s₄' r t₄ _ => ?_
      refine .step t₄.settle fun s₅ s₅' left t₅ _ => ?_
      cases left with
      | none => exact .ok ⟨t₅, rfl⟩
      | some r => exact ih t₅

/-- The clause that is false has the same literals in both, and so has what comes of it. -/
theorem resolve (t : s.Twin s') : Jointly (Beside Twin) (s.resolve id) (s'.resolve id) := by
  refine .bind t.countUse fun s₁ s₁' t₁ _ => .read t₁.net.clause fun c _ => ?_
  have level : s₁'.level = s₁.level := t₁.level
  rw [level]
  refine .step t₁.absorb fun s₂ s₂' r t₂ _ => .step t₂.settle fun s₃ s₃' left t₃ _ => ?_
  cases left with
  | none => exact .ok ⟨t₃, rfl⟩
  | some r =>
      obtain ⟨⟨arena, journal⟩⟩ := t₃
      exact walk (.mk (.mk arena journal))

theorem absorbPremises {others marked : Array Lit} {qs : List Lit} (t : s.Twin s') :
    Jointly (Beside Twin) (s.absorbPremises others marked qs)
      (s'.absorbPremises others marked qs) := by
  induction qs generalizing s s' others marked with
  | nil => exact .ok ⟨t, rfl⟩
  | cons q qs ih =>
      obtain ⟨⟨arena, journal⟩⟩ := t
      refine .same fun seen _ => .same fun level _ => .ite (fun _ => ?_) fun _ => ?_
      · refine .bind (mark (.mk (.mk arena journal))) fun s₁ s₁' t₁ _ => ?_
        exact .bind t₁.updateOrder fun s₂ s₂' t₂ _ => ih t₂
      · exact ih (.mk (.mk arena journal))

/-- The same literals are replaced. -/
theorem replaceUnreliable {fuel i : Nat} {others marked : Array Lit} (t : s.Twin s') :
    Jointly (Beside Twin) (replaceUnreliable fuel s others marked i)
      (Solver.replaceUnreliable fuel s' others marked i) := by
  induction fuel generalizing s s' others marked i with
  | zero =>
      unfold Solver.replaceUnreliable
      split
      · exact .ok ⟨t, rfl⟩
      · exact .error
  | succ fuel ih =>
      unfold Solver.replaceUnreliable
      split
      · exact .ok ⟨t, rfl⟩
      next q _ =>
        have premises : ∀ r, s'.net.premises r = s.net.premises r := fun _ => t.net.premises
        obtain ⟨⟨arena, journal⟩⟩ := t
        refine .same fun reason _ => .same fun reliable _ => .ite (fun _ => ?_) fun _ => ?_
        · exact ih (.mk (.mk arena journal))
        refine .read (premises reason) fun lits _ => ?_
        refine .step (absorbPremises (log (.mk (.mk arena journal)))) fun s₁ s₁' _ t₁ _ => ?_
        exact ih t₁

/-- The same literals are left out, as reasons stand for the same clauses. -/
theorem minimize {others : List Lit} (t : s.Twin s') :
    s'.minimize others = s.minimize others := by
  have premises : ∀ r, s'.net.premises r = s.net.premises r := fun _ => t.net.premises
  have covered : s'.anyUncovered = s.anyUncovered := by
    obtain ⟨⟨arena, journal⟩⟩ := t
    funext qs
    induction qs with
    | nil => rfl
    | cons q qs ih =>
        unfold anyUncovered
        simp only [ih]
  obtain ⟨⟨arena, journal⟩⟩ := t
  unfold Solver.minimize
  simp only [premises, covered]

theorem clearMarks (t : s.Twin s') : Jointly Twin (s.clearMarks ls) (s'.clearMarks ls) := by
  induction ls generalizing s s' with
  | nil => exact .ok t
  | cons l ls ih => exact .bind t.unmark fun s₁ s₁' t₁ _ => ih t₁

theorem allAdmissible (t : s.Twin s') : s'.allAdmissible ls = s.allAdmissible ls := by
  obtain ⟨⟨arena, journal⟩⟩ := t
  induction ls with
  | nil => rfl
  | cons l ls ih =>
      unfold Solver.allAdmissible
      simp only [ih]
      rfl

/-- What is gathered is the same, although the place that the log tells of is not. -/
theorem gather (t : s.Twin s') : Jointly (Beside Twin) (s.gather id) (s'.gather id) := by
  obtain ⟨⟨arena, journal⟩⟩ := t
  refine .same fun _ _ => .bind (S := fun _ _ => True) (fun _ _ _ _ => trivial) fun c d _ _ => ?_
  refine .step (resolve (.mk (.mk arena (journal.log rfl rfl)))) fun s₁ s₁' result t₁ _ => ?_
  cases result with
  | none => exact .ok ⟨t₁, rfl⟩
  | some found =>
      obtain ⟨p, others⟩ := found
      obtain ⟨⟨arena, journal⟩⟩ := t₁
      exact .same fun value _ => .same fun _ _ => .ok ⟨.mk (.mk arena journal), rfl⟩

theorem countLiterals {raw kept : Nat} (t : s.Twin s') :
    (s.countLiterals raw kept).Twin (s'.countLiterals raw kept) := by
  obtain ⟨t⟩ := t
  exact .mk t

theorem replaceAll {others : List Lit} (t : s.Twin s') :
    Jointly (Beside Twin) (s.replaceAll others) (s'.replaceAll others) := by
  have vars : s'.numVars = s.numVars := congrArg Trail.numVars t.net.trail
  unfold Solver.replaceAll
  rw [vars]
  exact t.replaceUnreliable

theorem compose {gathered : Option (Lit × List Lit)} (t : s.Twin s') :
    Jointly (Beside Twin) (Solver.compose (s, gathered)) (Solver.compose (s', gathered)) := by
  cases gathered with
  | none => exact .ok ⟨t, rfl⟩
  | some found =>
      obtain ⟨p, others⟩ := found
      refine .step t.replaceAll fun s₂ s₂' (others, marked) t₂ _ => .read t₂.minimize
        fun kept _ => ?_
      have counted : (s₂.countLiterals others.size kept.length).Twin
          (s₂'.countLiterals others.size kept.length) := t₂.countLiterals
      have arranged : latestFirst (s₂'.countLiterals others.size kept.length).net.trail kept =
          latestFirst (s₂.countLiterals others.size kept.length).net.trail kept := by
        rw [counted.net.trail]
      refine .read arranged fun (kept, level) _ => .bind counted.clearMarks fun s₃ s₃' t₃ _ => ?_
      obtain ⟨⟨arena, journal⟩⟩ := t₃
      refine .same fun fails _ => .same fun _ _ => ?_
      exact .ok ⟨.mk (.mk arena journal), rfl⟩

theorem testLesson {result : Option Lesson} (t : s.Twin s') :
    Jointly (Beside Twin) (Solver.testLesson (s, result)) (Solver.testLesson (s', result)) := by
  cases result with
  | none => exact .ok ⟨t, rfl⟩
  | some lesson => exact .read t.allAdmissible fun _ _ => .same fun _ _ => .ok ⟨t, rfl⟩

/-- What is learnt is the same. -/
theorem analyze (t : s.Twin s') : Jointly (Beside Twin) (s.analyze id) (s'.analyze id) := by
  refine .step (.step t.gather fun s₁ s₁' gathered t₁ _ => t₁.compose) fun s₂ s₂' result t₂ _ => ?_
  exact t₂.testLesson

/-! ## Learning -/

/-- The lesson gets the same name in both. -/
theorem assertLesson {x : Lesson} (t : s.Twin s') :
    Jointly Twin (s.assertLesson x) (s'.assertLesson x) := by
  refine .bind t.log.cancelUntil fun s₁ s₁' t₁ _ => ?_
  split
  · exact .same fun _ _ => t₁.updateNet fun u => u.enqueue
  · refine .step t₁.net.addClause fun n₁ m₁ id u₁ _ => ?_
    refine .bind u₁.bumpClause fun n₂ m₂ u₂ _ => .read u₂.clause fun c _ => ?_
    exact .bind u₂.enqueue fun n₃ m₃ u₃ _ => .ok (t₁.withNet u₃)

theorem assertRootConflict (t : s.Twin s') :
    Jointly Twin s.assertRootConflict s'.assertRootConflict := by
  refine .bind t.log.cancelUntil fun s₁ s₁' ⟨t₁⟩ _ => ?_
  exact .ok (.mk t₁)

theorem decayActivities (t : s.Twin s') : s.decayActivities.Twin s'.decayActivities := by
  obtain ⟨⟨arena, journal⟩⟩ := t
  exact .mk (.mk arena journal)

theorem learn (t : s.Twin s') : Jointly Twin (s.learn id) (s'.learn id) := by
  refine .step t.analyze fun s₁ s₁' lesson t₁ _ => ?_
  cases lesson with
  | some x => exact .bind t₁.assertLesson fun s₂ s₂' t₂ _ => .ok t₂.decayActivities
  | none => exact .bind t₁.assertRootConflict fun s₂ s₂' t₂ _ => .ok t₂.decayActivities

theorem countConflict (t : s.Twin s') : s.countConflict.Twin s'.countConflict := by
  obtain ⟨t⟩ := t
  exact .mk t

theorem resolveConflict (t : s.Twin s') :
    Jointly (Beside Twin) s.resolveConflict s'.resolveConflict := by
  obtain ⟨⟨arena, journal⟩⟩ := t
  unfold Solver.resolveConflict
  dsimp only
  split
  · exact .ok ⟨.mk (.mk arena journal), rfl⟩
  · refine .same fun _ _ => ?_
    refine .bind (learn (.mk (.mk arena journal))) fun s₁ s₁' ⟨t₁⟩ _ => ?_
    exact .ok ⟨.mk t₁, rfl⟩

/-! ## Adding clauses -/

theorem assertUnit (t : s.Twin s') :
    Jointly (Beside Twin) (s.assertUnit l) (s'.assertUnit l) :=
  .mono (fun both => ⟨both.1.twin, both.2⟩) (t.apart.assertUnit Journal.Twin.lockstep)

/-- The same literals are kept, and the answer is the same. -/
theorem addAtRoot (t : s.Twin s') : Jointly (Beside Twin) (s.addAtRoot ls) (s'.addAtRoot ls) := by
  refine .read (by rw [t.net.trail]) fun normal _ => ?_
  split
  · exact .ok ⟨t, rfl⟩
  · obtain ⟨t⟩ := t
    exact .ok ⟨.mk t, rfl⟩
  · exact .step t.assertUnit fun s₁ s₁' answer t₁ _ => .ok ⟨t₁, rfl⟩
  · exact .step t.net.addClause fun n m id u _ => .ok ⟨t.withNet u, rfl⟩

/-- Both solvers go back as far, and the clause gets the same name. -/
theorem insertArranged {a b : Ranked} (t : s.Twin s') :
    Jointly Twin (s.insertArranged a b ls) (s'.insertArranged a b ls) := by
  unfold Solver.insertArranged
  split
  · exact .step t.net.addClause fun n m id u _ => .ok (t.withNet u)
  · refine .same fun k _ => .bind t.cancelUntil fun s₁ s₁' t₁ _ => ?_
    exact .step t₁.net.addClause fun n m id u _ => .ok (t₁.withNet u)
  · refine .bind t.cancelUntil fun s₁ s₁' t₁ _ => ?_
    refine .step t₁.net.addClause fun n m id u _ => .read u.clause fun c _ => ?_
    exact .bind u.enqueue fun n₁ m₁ u₁ _ => .ok (t₁.withNet u₁)

theorem addAboveRoot (t : s.Twin s') :
    Jointly (Beside Twin) (s.addAboveRoot ls) (s'.addAboveRoot ls) := by
  refine .read (by rw [t.net.trail]) fun normal _ => ?_
  split
  · exact .ok ⟨t, rfl⟩
  · obtain ⟨t⟩ := t
    exact .ok ⟨.mk t, rfl⟩
  · refine .bind t.cancelUntil fun s₁ s₁' t₁ _ => ?_
    exact .step t₁.assertUnit fun s₂ s₂' answer t₂ _ => .ok ⟨t₂, rfl⟩
  · refine .read (by rw [t.net.trail]) fun ranked _ => ?_
    split
    · exact .bind t.insertArranged fun s₁ s₁' t₁ _ => .ok ⟨t₁, rfl⟩
    · exact .error

/-- A clause is added with the same answer and the same literals left. -/
theorem addClauseReporting (t : s.Twin s') :
    Jointly (Beside Twin) (s.addClauseReporting ls) (s'.addClauseReporting ls) := by
  obtain ⟨⟨arena, journal⟩⟩ := t
  refine .ite (fun _ => .ok ⟨.mk (.mk arena journal), rfl⟩) fun _ => .ite (fun _ => ?_) fun _ => ?_
  · exact addAtRoot (log (.mk (.mk arena journal)))
  · exact addAboveRoot (log (.mk (.mk arena journal)))

theorem addClause (t : s.Twin s') : Jointly (Beside Twin) (s.addClause ls) (s'.addClause ls) :=
  .step t.addClauseReporting fun _ _ _ t₁ _ => .ok ⟨t₁, rfl⟩

end Twin

end Cdcl.Solver
