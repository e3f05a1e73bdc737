import Cdcl.Proofs.Rehearsing
import Cdcl.Proofs.Searching
import Cdcl.Proofs.Success.Levels
import Cdcl.Proofs.Twins.Search

/-!
# Giving learnt clauses up is safe

In the middle of a search learnt clauses are given up: the list of them is sorted by how much
they are used, walked along and written back, and the arena may be compacted afterwards.

How often a clause was used only decides which clauses go.  So the theorem is about
`Solver.reduceBy` with the candidates in any order, whatever the sort makes of them; a clause
that is locked stays in all of them.

* `sheds_removeClause`, `prune_sheds`, `reduceLearnts_sheds` — what goes is a long learnt
  clause that is no reason, and nothing else changes;
* `Sheds.discards` — so every watcher and every reason still has its clause;
* `Reaches.reduce_discards` — this holds wherever a search may give clauses up.
-/

namespace Cdcl

namespace Network

variable {n n' n'' : Network} {id j : ClauseId} {c : Clause} {rows : Bool → List ClauseId}

/-- The clause is a learnt one of more than two literals, and the reason of no literal. -/
def Idle (n : Network) (id : ClauseId) : Prop :=
  ∃ c, n.clause id = .ok c ∧ c.learnt = true ∧ 2 < c.size ∧
    ∀ l ∈ n.trail.lits, n.trail.reasonOf l.var ≠ .ok (.clause id)

/-- Idle clauses are gone, and the trail, the other clauses and the row of problem clauses
are the same. -/
structure Sheds (n n' : Network) : Prop where
  trail : n'.trail = n.trail
  problem : n'.row false = n.row false
  tally : n'.tally false = n.tally false
  clause : ∀ id, n'.clause id = n.clause id ∨ (n.Idle id ∧ ∀ c, n'.clause id ≠ .ok c)

namespace Sheds

theorem of_db (trail : n'.trail = n.trail) (problem : n'.db.problem = n.db.problem)
    (tally : n'.db.problemTally = n.db.problemTally)
    (clause : ∀ id, n'.clause id = n.clause id) : n.Sheds n' :=
  ⟨trail, congrArg Array.toList problem, tally, fun id => .inl (clause id)⟩

/-- Clauses may be shed one after the other. -/
theorem trans (a : n.Sheds n') (b : n'.Sheds n'') : n.Sheds n'' where
  trail := b.trail.trans a.trail
  problem := b.problem.trans a.problem
  tally := b.tally.trans a.tally
  clause id := by
    rcases b.clause id with same | ⟨⟨c, read, rest⟩, gone⟩
    · rw [same]
      exact a.clause id
    · rcases a.clause id with same | ⟨-, gone'⟩
      · rw [same] at read
        rw [a.trail] at rest
        exact .inr ⟨⟨c, read, rest⟩, gone⟩
      · exact absurd read (gone' c)

end Sheds

theorem Twin.sheds (t : n.Twin n') : n.Sheds n' := by
  have clause : ∀ id, n'.clause id = n.clause id := fun id => t.clause
  cases t with
  | mk => exact .of_db rfl rfl rfl clause

/-! ## One clause -/

/-- A clause that is the reason of a literal implies it, so that it is locked. -/
theorem not_reason_of_unlocked (core : n.Core) (g : View.Grounded ⟨n, n.watchers, rows⟩)
    (unlocked : n.locked id = .ok false) :
    ∀ l ∈ n.trail.lits, n.trail.reasonOf l.var ≠ .ok (.clause id) := by
  intro l true_ named
  obtain ⟨c, stored, rfl⟩ := g.named true_ named
  exact not_named_of_unlocked core.trail stored unlocked true_ named

/-- Removing a long learnt clause that is not locked sheds it alone. -/
theorem sheds_removeClause (core : n.Core) (g : View.Grounded ⟨n, n.watchers, rows⟩)
    (read : n.clause id = .ok c) (learnt : c.learnt = true) (long : 2 < c.size)
    (unlocked : n.locked id = .ok false) (h : n.removeClause id = .ok n') : n.Sheds n' := by
  have stored : n.body? id = some c.body := Arena.body?_of_get read
  obtain ⟨drops, -, row⟩ :=
    removeClause_drops core stored (.inl learnt) (.inr ⟨unlocked, learnt⟩) h
  refine ⟨trail_removeClause core.trail stored unlocked h, congrFun row false, ?_, fun j => ?_⟩
  · have counted := drops.tally false
    rwa [if_neg (by simp [learnt]), eq_comm] at counted
  · rw [clause_removeClause h]
    split
    next same =>
      subst same
      exact .inr ⟨⟨c, read, learnt, long, not_reason_of_unlocked core g unlocked⟩, nofun⟩
    next => exact .inl rfl

/-! ## The walk -/

/-- By induction along the candidates, whose names differ. -/
theorem prune_sheds (rows : Bool → List ClauseId) {half i : Nat} {bound : Float}
    {kept kept' : Array ClauseId} {cs : List Candidate}
    (h : n.prune half bound kept i cs = .ok (n', kept')) (core : n.Core)
    (sturdy : View.Sturdy ⟨n, n.watchers, rows⟩)
    (own : ∀ c ∈ cs, n.candidate c.id = .ok c)
    (here : rows true = kept.toList ++ cs.map (·.id)) : n.Sheds n' := by
  induction cs generalizing n kept rows i with
  | nil =>
      cases h
      exact .of_db rfl rfl rfl fun _ => rfl
  | cons c cs ih =>
      have own' : ∀ d ∈ cs, n.candidate d.id = .ok d := fun d hd => own d (List.mem_cons_of_mem c hd)
      obtain ⟨locked, tested, h⟩ := bind_eq_ok.mp h
      simp only at h
      split at h
      next dropped =>
        obtain ⟨n₁, removed, h⟩ := bind_eq_ok.mp h
        simp only [Bool.and_eq_true, Bool.not_eq_true'] at dropped
        obtain ⟨⟨long, idle⟩, -⟩ := dropped
        subst idle
        obtain ⟨d, read, made⟩ := bind_eq_ok.mp (own c List.mem_cons_self)
        obtain ⟨_, learnt, made⟩ := bind_eq_ok.mp made
        have learnt := ensure_eq_ok.mp learnt
        have short := congrArg Candidate.short (Except.ok.inj made)
        have long : 2 < d.size := by simpa [long] using short
        have first := sheds_removeClause core sturdy.grounded read learnt long tested removed
        obtain ⟨step, -, -⟩ :=
          removeIdle_step core (Arena.body?_of_get read) learnt tested here removed
        have once : (rows true).Nodup := sturdy.indexed.once true
        rw [here] at once
        have apart := (List.nodup_cons.mp (List.nodup_append.mp once).2.1).1
        refine first.trans (ih (Function.update rows true (kept.toList ++ cs.map (·.id))) h
          (step.core core) (step.sturdy core sturdy) (fun e he => ?_) (Function.update_self ..))
        -- the other clauses, whose names differ, are as the candidates say
        have other : e.id ≠ c.id := fun same => apart (List.mem_map.mpr ⟨e, he, same⟩)
        unfold candidate
        rw [clause_removeClause removed, if_neg other]
        exact own' e he
      next => exact ih rows h core sturdy own' (by simpa using here)

/-- Whatever the order of the candidates, only idle clauses are shed. -/
theorem reduceLearnts_sheds {sort : List Candidate → List Candidate}
    (perm : ∀ cs, (sort cs).Perm cs) (core : n.Core) (sturdy : n.view.Sturdy)
    (h : n.reduceLearnts sort = .ok n') : n.Sheds n' := by
  obtain ⟨cs, listed, h⟩ := bind_eq_ok.mp h
  obtain ⟨⟨n₁, learnts⟩, pruned, h⟩ := bind_eq_ok.mp h
  obtain ⟨_, -, h⟩ := bind_eq_ok.mp h
  obtain ⟨_, -, h⟩ := bind_eq_ok.mp h
  cases h
  have first : View.Step n.view (n.log .reduceStart).view := log_step n .reduceStart
  have core₁ := first.core core
  have enlisted := enlists_candidates perm listed
  have sturdy₁ := enlisted.step.sturdy core₁ (first.sturdy core sturdy)
  have told : n.Sheds (n.log .reduceStart) := .of_db rfl rfl rfl fun _ => rfl
  have walked := prune_sheds _ pruned core₁ sturdy₁ (fun c => enlisted.candidate) (by simp)
  exact (told.trans walked).trans (.of_db rfl rfl rfl fun _ => rfl)

/-! ## What holds afterwards -/

/-- Learnt clauses have been given up on which nothing depended. -/
structure Discards (n n' : Network) : Prop where
  trail : n'.trail = n.trail
  problem : n'.db.problem = n.db.problem
  tally : n'.db.problemTally = n.db.problemTally
  fewer : n'.db.learnts.toList.Subperm n.db.learnts.toList
  clauses : ∀ id ∈ n'.ids, ∃ c, n.clause id = .ok c ∧ n'.clause id = .ok c
  gone : ∀ id ∈ n.db.learnts, id ∉ n'.db.learnts → n.Idle id ∧ (∀ c, n'.clause id ≠ .ok c) ∧
    ∀ l, ∀ w ∈ n'.watchers l, w.clause ≠ id
  watches : n'.WatchesExactly
  reasons : ∀ l ∈ n'.trail.lits, ∀ id, n'.trail.reasonOf l.var = .ok (.clause id) →
    ∃ c, n.clause id = .ok c ∧ n'.clause id = .ok c ∧ id ∈ n'.ids ∧ c.first = l

/-- What has been shed was no reason and has no watcher left. -/
theorem Sheds.discards (s : n.Sheds n') (x : n.view.Indexed) (w' : n'.WF n'.Lists)
    (d' : n'.view.Sturdy) : n.Discards n' := by
  have x' := d'.indexed
  have kept : ∀ {id c}, n'.clause id = .ok c → n.clause id = .ok c := fun {id c} read =>
    (s.clause id).elim (fun same => same ▸ read) fun ⟨_, gone⟩ => absurd read (gone c)
  refine ⟨s.trail, Array.toList_inj.mp s.problem, s.tally, ?_, fun id inside => ?_,
    fun id inside out => ?_, w'.watchesExactly x', fun l true_ id named => ?_⟩
  · refine List.subperm_of_subset (x'.once true) fun id inside => ?_
    obtain ⟨c, read, learnt⟩ := (mem_row x' true).mp inside
    exact (mem_row x true).mpr ⟨c, kept read, learnt⟩
  · obtain ⟨c, read⟩ := (mem_ids_iff x').mp inside
    exact ⟨c, kept read, read⟩
  · obtain ⟨c, read, learnt⟩ := (mem_row x true).mp (Array.mem_toList_iff.mpr inside)
    rcases s.clause id with same | ⟨idle, gone⟩
    · have still := (mem_row x' true).mpr ⟨c, same.trans read, learnt⟩
      exact absurd (Array.mem_toList_iff.mp still) out
    · refine ⟨idle, gone, fun l w watching same => ?_⟩
      obtain ⟨b, stored, -⟩ := x'.watching watching
      obtain ⟨d, read', -⟩ := exists_clause stored
      exact gone d (same ▸ read')
  · obtain ⟨b, stored, first⟩ := d'.grounded.named true_ named
    obtain ⟨c, read, rfl⟩ := exists_clause stored
    exact ⟨c, kept read, read, (mem_ids_iff x').mpr ⟨c, read⟩, first⟩

end Network

namespace Solver

open Network (Regime)

variable {g : Regime} {s s' s'' : Solver} {options : Options}
  {allowed : Solver → Call → Prop} {calls : List Call}

/-- Giving clauses up in whatever order, with the compaction that may follow. -/
theorem reduceBy_discards {sort : List Candidate → List Candidate}
    (perm : ∀ cs, (sort cs).Perm cs) (i : s.Inv g none none) (d : s.net.view.Sturdy)
    (h : s.reduceBy sort = .ok s') :
    (∃ net, s' = { s with net }) ∧ s.net.Discards s'.net := by
  have i' := (i.reduceBy perm h).1
  have d' := (reduceBy_moves perm i h).sturdy i.core d
  obtain ⟨s₁, reduced, h⟩ := bind_eq_ok.mp h
  obtain ⟨n, pruned, rfl⟩ := updateNet_eq_ok.mp reduced
  have i₁ := i.reduced (Network.reduces_reduceLearnts perm i.net.wf pruned)
  have d₁ : n.view.Sturdy := (Network.reduceLearnts_chain perm i.core pruned).sturdy i.core d
  have sheds := Network.reduceLearnts_sheds perm i.core d pruned
  obtain ⟨m, twin, rfl⟩ := twin_checkGarbage (i₁.core.whole d₁) h
  exact ⟨⟨m, rfl⟩, (sheds.trans twin.sheds).discards d.indexed i'.net.wf d'⟩

/-- Wherever a search may give learnt clauses up, and in whatever order it takes them: those
that go are long, learnt and no reasons, and everything else stays as it is, the watchers of
the clauses that stay and the clauses that are reasons among it.  If it fails, then because
an activity is not a number or the arena is too large to be reported. -/
theorem Reaches.reduce_discards (run : Reaches options allowed calls s) (at_ : s.Decides s') :
    s'.reduce = s'.reduceBy s'.outside.arrange ∧
      ∀ sort : List Candidate → List Candidate, (∀ cs, (sort cs).Perm cs) →
        (∀ f, s'.reduceBy sort = .error f → f = .incomparableActivities ∨ f = .reportTooLarge) ∧
        ∀ s'', s'.reduceBy sort = .ok s'' →
          (∃ net, s'' = { s' with net }) ∧ s'.net.Discards s''.net := by
  have ready := run.standing
  have running := (at_.running ready fun _ => trivial).1
  have sane := at_.sane ready (fun _ => trivial) run.sane
  refine ⟨rfl, fun sort perm => ⟨?_, fun s'' h => ?_⟩⟩
  · exact (reduceBy_sane perm (.inl rfl) (.inr rfl) running.inv sane).failsOnly
  · exact reduceBy_discards perm running.inv sane.sturdy h

/-- Each pair of problem clauses gives a lesson of three literals.  Variable 7 may not be
decided afterwards, so that the second lesson is met as a reason. -/
def twoLessons : List Call :=
  [.newVar {}, .newVar {}, .newVar {}, .newVar {}, .newVar { polarity := .holds },
    .newVar { polarity := .holds }, .newVar { polarity := .holds }, .newVar {},
    .addClause [⟨⟨0⟩, false⟩, ⟨⟨1⟩, false⟩, ⟨⟨2⟩, false⟩, ⟨⟨3⟩, true⟩],
    .addClause [⟨⟨0⟩, false⟩, ⟨⟨1⟩, false⟩, ⟨⟨2⟩, false⟩, ⟨⟨3⟩, false⟩],
    .addClause [⟨⟨4⟩, false⟩, ⟨⟨5⟩, false⟩, ⟨⟨6⟩, false⟩, ⟨⟨7⟩, true⟩],
    .addClause [⟨⟨4⟩, false⟩, ⟨⟨5⟩, false⟩, ⟨⟨6⟩, false⟩, ⟨⟨7⟩, false⟩],
    .decide ⟨⟨0⟩, true⟩, .propagate, .decide ⟨⟨1⟩, true⟩, .propagate, .decide ⟨⟨2⟩, true⟩,
    .propagate, .resolveConflict, .cancelUntil 0,
    .decide ⟨⟨4⟩, true⟩, .propagate, .decide ⟨⟨5⟩, true⟩, .propagate, .decide ⟨⟨6⟩, true⟩,
    .propagate, .resolveConflict, .cancelUntil 0, .setDecision ⟨7⟩ false]

/-- After two decisions the second lesson is the reason of a literal.  Both lessons are long
and little used; the first one goes, and the arena is compacted. -/
theorem locked_lesson_kept : ∃ s s' s'' c,
    Reaches { clauseDecay := 0.25, garbageFraction := 0.1, minLearntLimit := 10 }
      (fun _ _ => True) twoLessons s ∧
    s.Decides s' ∧ s'.level = 2 ∧ s'.net.db.learnts = #[⟨4⟩, ⟨5⟩] ∧ s'.reduce = .ok s'' ∧
    s''.net.db.learnts = #[⟨5⟩] ∧ (∀ c, s''.net.clause ⟨4⟩ ≠ .ok c) ∧
    s'.net.db.arena.size = 30 ∧ s''.net.db.arena.size = 25 ∧
    s''.net.trail.reasonOf ⟨5⟩ = .ok (.clause ⟨5⟩) ∧ s''.net.clause ⟨5⟩ = .ok c ∧
    c.first = ⟨⟨5⟩, false⟩ ∧ s'.net.Discards s''.net := by
  have found : ∃ s ∈ (create
        { clauseDecay := 0.25, garbageFraction := 0.1, minLearntLimit := 10 } false none
        .inserting).toOption,
      ∃ s' ∈ s.playAll (fun _ _ => True) twoLessons, ∃ s₁ ∈ (s'.searchUpTo 2).toOption,
        (s₁.level = 2 ∧ s₁.net.db.learnts = #[⟨4⟩, ⟨5⟩] ∧ s₁.net.db.arena.size = 30) ∧
        ∃ s₂ ∈ s₁.reduce.toOption,
          (s₂.net.db.learnts = #[⟨5⟩] ∧ s₂.net.db.arena.size = 25) ∧
          (⟨⟨5⟩, false⟩ : Lit) ∈ s₂.net.trail.lits ∧
            s₂.net.trail.reasonOf ⟨5⟩ = .ok (.clause ⟨5⟩) := by
    set_option synthInstance.maxSize 512 in decide +kernel
  obtain ⟨s, run, s', searched, ⟨level, learnts, before⟩, s'', reduced, ⟨left, after⟩, true_,
    named⟩ := exists_played found
  have decides := decides_searchUpTo (eq_ok_of_toOption searched)
  have reduced := eq_ok_of_toOption reduced
  obtain ⟨same, safe⟩ := run.reduce_discards decides
  obtain ⟨-, discards⟩ := (safe _ s'.outside.arrange_perm).2 s'' (same.symm.trans reduced)
  obtain ⟨-, gone, -⟩ := discards.gone ⟨4⟩ (by simp [learnts]) (by simp [left])
  obtain ⟨c, -, read, -, implied⟩ := discards.reasons _ true_ _ named
  exact ⟨s, s', s'', c, run, decides, level, learnts, reduced, left, gone, before, after, named,
    read, implied, discards⟩

end Solver

end Cdcl
