import Cdcl.Proofs.Twins
import Cdcl.Propagation
import Cdcl.Solver.Reduction
import Cdcl.Solver.Simplification

/-!
# The operations of a network, side by side

No operation of a network but compaction looks at the place of a clause or at the counters
of the arena, so twins stay twins, and the answers are the same.

The proofs follow the text of the operations.  Once a pair of twins is taken apart, all that
looks at neither the arena nor the journal is the same by definition, and `Jointly.same`
passes it; the others are steps of both.

* `Apart.propagate` — propagation, for any relation between the journals;
* `Twin.addClause`, `Twin.removeClause`, `Twin.bumpClause` — the stored clauses;
* `Twin.sweepAll`, `Twin.reduceLearnts` — giving clauses up.
-/

namespace Cdcl

/-- All activities are scaled down in both arenas. -/
theorem Arena.Twin.scaleActivities {a b : Arena} {ids : List ClauseId} (t : a.Twin b) :
    Jointly Twin (Network.scaleActivities a ids) (Network.scaleActivities b ids) := by
  induction ids generalizing a b with
  | nil => exact .ok t
  | cons id ids ih =>
      refine .read t.get fun c _ => .same fun _ _ => ?_
      exact .bind t.set fun a₁ b₁ t₁ _ => ih t₁

namespace Network.Apart

variable {J : Journal → Journal → Prop} {n m : Network} {l p : Lit} {w : Watcher} {r : Reason}

/-! ## Propagation -/

theorem watch (t : n.Apart J m) : Jointly (Apart J) (n.watch l w) (m.watch l w) := by
  obtain ⟨arena, journal⟩ := t
  exact .same fun watches _ => .ok (.mk arena journal)

/-- A literal is assigned in both networks or in neither, and its observer is told in both. -/
theorem enqueue (j : Journal.Lockstep J) (t : n.Apart J m) :
    Jointly (Apart J) (n.enqueue p r) (m.enqueue p r) := by
  obtain ⟨arena, journal⟩ := t
  refine .same fun observed _ => .same fun trail _ => .ite (fun _ => ?_) fun _ => ?_
  · exact .ok (.mk arena (j.notify journal))
  · exact .ok (.mk arena journal)

/-- A visit of a clause ends in the same way. -/
theorem visit (j : Journal.Lockstep J) (t : n.Apart J m) :
    Jointly (Beside (Apart J)) (n.visit p w) (m.visit p w) := by
  have read : m.clause w.clause = n.clause w.clause := t.clause
  obtain ⟨arena, journal⟩ := t
  refine .same fun blocking _ => .ite (fun _ => .ok ⟨.mk arena journal, rfl⟩) fun _ => ?_
  refine .read read fun c _ => .same fun _ _ => .same fun firstValue _ => ?_
  refine .ite (fun _ => ?_) fun _ => .same fun choice _ => ?_
  · exact .bind arena.set fun a b arena _ => .ok ⟨.mk arena journal, rfl⟩
  cases choice with
  | some parts =>
      refine .bind arena.set fun a b arena _ => .same fun _ _ => ?_
      exact .bind (watch (.mk arena journal)) fun n₁ m₁ t₁ _ => .ok ⟨t₁, rfl⟩
  | none =>
      refine .bind arena.set fun a b arena _ => .ite (fun _ => ?_) fun _ => ?_
      · exact .ok ⟨.mk arena journal, rfl⟩
      · exact .bind (enqueue j (.mk arena journal)) fun n₁ m₁ t₁ _ => .ok ⟨t₁, rfl⟩

/-- By induction along the list, the same watchers stay and the same clause is found false. -/
theorem scan {kept : Array Watcher} {ws : List Watcher} (j : Journal.Lockstep J)
    (t : n.Apart J m) : Jointly (Beside (Apart J)) (n.scan p kept ws) (m.scan p kept ws) := by
  induction ws generalizing n m kept with
  | nil => exact .ok ⟨t, rfl⟩
  | cons w ws ih =>
      refine .step (t.visit j) fun n₁ m₁ v t₁ _ => ?_
      cases v with
      | keep w' => exact ih t₁
      | moved => exact ih t₁
      | conflict w' => exact .ok ⟨t₁, rfl⟩

theorem visitAll (j : Journal.Lockstep J) (t : n.Apart J m) :
    Jointly (Beside (Apart J)) (n.visitAll p) (m.visitAll p) := by
  obtain ⟨arena, journal⟩ := t
  refine .same fun list _ => .same fun watches _ => ?_
  refine .step (scan j (.mk arena journal)) fun n₁ m₁ (kept, conflict) ⟨arena, journal⟩ _ => ?_
  refine .same fun rest _ => .same fun _ _ => .same fun watches _ => ?_
  exact .ok ⟨.mk arena journal, rfl⟩

/-- By induction over the steps, the same literals are propagated. -/
theorem drain {fuel count : Nat} (j : Journal.Lockstep J) (t : n.Apart J m) :
    Jointly (Beside (Apart J)) (Network.drain fuel n count) (Network.drain fuel m count) := by
  induction fuel generalizing n m count with
  | zero =>
      obtain ⟨arena, journal⟩ := t
      unfold Network.drain
      dsimp only
      split
      · exact .ok ⟨.mk arena journal, rfl⟩
      · exact .error
  | succ fuel ih =>
      obtain ⟨arena, journal⟩ := t
      unfold Network.drain
      dsimp only
      split
      · exact .ok ⟨.mk arena journal, rfl⟩
      next p _ =>
        refine .step (visitAll j (.mk arena journal)) fun n₁ m₁ conflict t₁ _ => ?_
        cases conflict with
        | none => exact ih t₁
        | some id =>
            obtain ⟨arena, journal⟩ := t₁
            exact .ok ⟨.mk arena journal, rfl⟩

/-- Propagation comes to the same conflict, or to none, after as many steps. -/
theorem propagate (j : Journal.Lockstep J) (t : n.Apart J m) :
    Jointly (Beside (Apart J)) n.propagate m.propagate := by
  unfold Network.propagate
  rw [t.trail]
  exact t.drain j

end Network.Apart

namespace Network.Twin

variable {n m : Network} {id : ClauseId} {l p : Lit} {w : Watcher} {r : Reason}

/-! ## Stored clauses -/

theorem enqueue (t : n.Twin m) : Jointly Twin (n.enqueue p r) (m.enqueue p r) :=
  .mono Apart.twin (t.apart.enqueue Journal.Twin.lockstep)

theorem premises (t : n.Twin m) : m.premises r = n.premises r := by
  cases r with
  | clause id => rw [Network.premises, Network.premises, t.clause]
  | _ => rfl

theorem watch (t : n.Twin m) : Jointly Twin (n.watch l w) (m.watch l w) :=
  .mono Apart.twin t.apart.watch

theorem propagate (t : n.Twin m) : Jointly (Beside Twin) n.propagate m.propagate :=
  .mono (fun both => ⟨both.1.twin, both.2⟩) (t.apart.propagate Journal.Twin.lockstep)

/-- The watcher stands at the same place of the same list. -/
theorem unwatch (t : n.Twin m) : Jointly Twin (n.unwatch l id) (m.unwatch l id) := by
  obtain ⟨arena, journal⟩ := t
  refine .same fun list _ => ?_
  cases list.findIdx? (·.clause = id) with
  | none => exact .error
  | some i => exact .same fun watches _ => .ok (.mk arena journal)

theorem retally {learnt : Bool} {f : Tally → Except Fault Tally} (t : n.Twin m) :
    Jointly Twin (n.retally learnt f) (m.retally learnt f) := by
  obtain ⟨arena, journal⟩ := t
  refine .ite (fun _ => ?_) fun _ => ?_
  · exact .same fun tally _ => .ok (.mk arena journal)
  · exact .same fun tally _ => .ok (.mk arena journal)

theorem attach (t : n.Twin m) : Jointly Twin (n.attach id) (m.attach id) := by
  refine .read t.clause fun c _ => ?_
  refine .bind t.watch fun n₁ m₁ t₁ _ => ?_
  exact .bind t₁.watch fun n₂ m₂ t₂ _ => t₂.retally

theorem detach (t : n.Twin m) : Jointly Twin (n.detach id) (m.detach id) := by
  refine .read t.clause fun c _ => ?_
  refine .bind t.unwatch fun n₁ m₁ t₁ _ => ?_
  exact .bind t₁.unwatch fun n₂ m₂ t₂ _ => t₂.retally

/-- A clause that is added gets the same name. -/
theorem addClause {lits : List Lit} {learnt : Bool} (t : n.Twin m) :
    Jointly (Beside Twin) (n.addClause lits learnt) (m.addClause lits learnt) := by
  obtain ⟨arena, journal⟩ := t
  refine .same fun c _ => .step arena.alloc fun a b id arena _ => ?_
  cases learnt with
  | false => exact .bind (attach (.mk arena journal)) fun n₁ m₁ t₁ _ => .ok ⟨t₁, rfl⟩
  | true => exact .bind (attach (.mk arena journal)) fun n₁ m₁ t₁ _ => .ok ⟨t₁, rfl⟩

theorem releaseReason {c : Clause} (t : n.Twin m) :
    Jointly Twin (n.releaseReason id c) (m.releaseReason id c) := by
  obtain ⟨arena, journal⟩ := t
  refine .same fun reason _ => .same fun value _ => .ite (fun _ => ?_) fun _ => ?_
  · exact .same fun trail _ => .ok (.mk arena journal)
  · exact .ok (.mk arena journal)

theorem removeClause (t : n.Twin m) : Jointly Twin (n.removeClause id) (m.removeClause id) := by
  refine .bind t.detach fun n₁ m₁ t₁ _ => .read t₁.clause fun c _ => ?_
  refine .bind t₁.releaseReason fun n₂ m₂ ⟨arena, journal⟩ _ => ?_
  exact .bind arena.free fun a b arena _ => .ok (.mk arena journal)

theorem locked (t : n.Twin m) : m.locked id = n.locked id := by
  have read : m.clause id = n.clause id := t.clause
  unfold Network.locked
  rw [read, t.trail]

/-- A clause becomes as active in both, and all are scaled down in both or in neither. -/
theorem bumpClause (t : n.Twin m) : Jointly Twin (n.bumpClause id) (m.bumpClause id) := by
  refine .read t.clause fun c _ => .same fun _ _ => ?_
  obtain ⟨arena, journal⟩ := t
  refine .bind arena.set fun a b arena _ => .ite (fun _ => ?_) fun _ => ?_
  · exact .bind arena.scaleActivities fun a b arena _ => .ok (.mk arena journal)
  · exact .ok (.mk arena journal)

/-! ## Giving clauses up -/

theorem trimClause (t : n.Twin m) : Jointly Twin (n.trimClause id) (m.trimClause id) := by
  refine .read t.clause fun c _ => ?_
  obtain ⟨arena, journal⟩ := t
  refine .same fun first _ => .same fun _ _ => .same fun second _ => .same fun _ _ => ?_
  refine .same fun rest _ => .bind arena.shrink fun a b arena _ => ?_
  exact retally (.mk arena journal)

/-- By induction along the row, the same clauses go and the same are trimmed. -/
theorem sweep {kept : Array ClauseId} {ids : List ClauseId} (t : n.Twin m) :
    Jointly (Beside Twin) (n.sweep kept ids) (m.sweep kept ids) := by
  induction ids generalizing n m kept with
  | nil => exact .ok ⟨t, rfl⟩
  | cons id ids ih =>
      refine .read t.clause fun c _ => .read (by rw [t.trail]) fun satisfied _ => ?_
      refine .ite (fun _ => ?_) fun _ => ?_
      · exact .bind t.log.removeClause fun n₁ m₁ t₁ _ => ih t₁
      · exact .bind t.trimClause fun n₁ m₁ t₁ _ => ih t₁

theorem sweepLearnts (t : n.Twin m) : Jointly Twin n.sweepLearnts m.sweepLearnts := by
  obtain ⟨arena, journal⟩ := t
  refine .step (sweep (.mk arena journal)) fun n₁ m₁ learnts ⟨arena, journal⟩ _ => ?_
  exact .ok (.mk arena journal)

theorem sweepProblem (t : n.Twin m) : Jointly Twin n.sweepProblem m.sweepProblem := by
  obtain ⟨arena, journal⟩ := t
  refine .step (sweep (.mk arena journal)) fun n₁ m₁ problem ⟨arena, journal⟩ _ => ?_
  exact .ok (.mk arena journal)

theorem sweepAll {problemToo : Bool} (t : n.Twin m) :
    Jointly Twin (n.sweepAll problemToo) (m.sweepAll problemToo) := by
  refine .bind t.sweepLearnts fun n₁ m₁ t₁ _ => .ite (fun _ => ?_) fun _ => ?_
  · exact t₁.sweepProblem
  · exact .ok t₁

/-- The candidates come out of the sort in the same order. -/
theorem candidates {sort : List Candidate → List Candidate} (t : n.Twin m) :
    m.candidates sort = n.candidates sort := by
  have candidate : m.candidate = n.candidate := by
    funext id
    unfold Network.candidate
    rw [t.clause]
  obtain ⟨arena, journal⟩ := t
  unfold Network.candidates
  rw [candidate]

/-- By induction along the candidates, the same clauses go. -/
theorem prune {half i : Nat} {bound : Float} {kept : Array ClauseId} {cs : List Candidate}
    (t : n.Twin m) :
    Jointly (Beside Twin) (n.prune half bound kept i cs) (m.prune half bound kept i cs) := by
  induction cs generalizing n m kept i with
  | nil => exact .ok ⟨t, rfl⟩
  | cons c cs ih =>
      refine .read t.locked fun locked _ => .ite (fun _ => ?_) fun _ => ih t
      exact .bind t.removeClause fun n₁ m₁ t₁ _ => ih t₁

theorem reasonsLive {ls : List Lit} (t : n.Twin m) : m.reasonsLive ls = n.reasonsLive ls := by
  obtain ⟨arena, journal⟩ := t
  induction ls with
  | nil => rfl
  | cons l ls ih =>
      unfold Network.reasonsLive
      simp only [arena.contains, ih]

theorem reduceLearnts {sort : List Candidate → List Candidate} (t : n.Twin m) :
    Jointly Twin (n.reduceLearnts sort) (m.reduceLearnts sort) := by
  have logged : (n.log .reduceStart).Twin (m.log .reduceStart) := t.log
  have same : (m.log .reduceStart).candidates sort = (n.log .reduceStart).candidates sort :=
    logged.candidates
  obtain ⟨arena, journal⟩ := t
  refine .read same fun cs _ => ?_
  refine .step logged.prune fun n₁ m₁ learnts ⟨arena, journal⟩ _ => ?_
  have t₂ := log (x := .reduceDone (n.db.learnts.size - learnts.size))
    (.mk (n := { n₁ with db := { n₁.db with learnts } }) arena journal)
  exact .read t₂.reasonsLive fun _ _ => .same fun _ _ => .ok t₂

end Network.Twin

end Cdcl
