import Cdcl.Proofs.Success.Propagation

/-!
# Storing and giving up clauses without a fault

Where the clauses are indexed and grounded, they can be stored, counted, trimmed, given up
and moved together.  What may fail is a clause that is too long, an arena that is too
large, and a comparison of activities.

* `failsOnly_addClause`, `failsOnly_bumpClause`, `failsOnly_removeClause`,
  `failsOnly_trimClause` — one clause;
* `Watchful` — a clause without a true literal has no false watched literal, which is what
  trimming asks for;
* `failsOnly_sweepAll`, `failsOnly_reduceLearnts`, `failsOnly_collect` — the walks.
-/

namespace Cdcl

variable {e : Fault → Prop}

namespace Arena

variable {a b : Arena} {id : ClauseId} {c : Clause}

theorem failsOnly_alloc (width : e .widthExceeded) : FailsOnly e (a.alloc c) :=
  have fits : ∀ {b : Bool}, FailsOnly e (ensureWidth b) := .ite (fun _ => .ok _) fun _ => .throw width
  .bind fits fun _ _ => .bind fits fun _ _ => .ok _

theorem failsOnly_free (stored : a.body? id = some c) : FailsOnly e (a.free id) :=
  .bind (failsOnly_get stored) fun _ _ => .ok _

theorem failsOnly_shrink {rest : List Lit} (stored : a.body? id = some c)
    (shorter : rest.length ≤ c.rest.length) : FailsOnly e (a.shrink id rest) := by
  refine .bind (failsOnly_get stored) fun d read => ?_
  cases stored.symm.trans (body?_of_get read)
  refine .bind (.ensure (decide_eq_true shorter)) fun _ _ => ?_
  exact .bind (failsOnly_set stored) fun _ _ => .ok _

theorem failsOnly_stored (live : a.contains id = true) : FailsOnly e (a.stored id) := by
  obtain ⟨s, found⟩ := Option.isSome_iff_exists.mp live
  unfold stored
  rw [found]
  exact .ok _

/-- By induction over the list, live clauses can be moved. -/
theorem failsOnly_moveAll {ids : List ClauseId} (live : ∀ id ∈ ids, a.contains id = true) :
    FailsOnly e (a.moveAll b ids) := by
  induction ids generalizing b with
  | nil => exact .ok _
  | cons id ids ih =>
      have moves : FailsOnly e (a.move b id) :=
        .bind (failsOnly_stored (live id List.mem_cons_self)) fun _ _ =>
          .ite (fun _ => .ok _) fun _ => .ok _
      exact .bind moves fun b' _ => ih fun id' later => live id' (List.mem_cons_of_mem id later)

end Arena

namespace Network

variable {n n' : Network} {id : ClauseId} {c : Clause} {rows : Bool → List ClauseId}

theorem failsOnly_clause (stored : n.body? id = some c) : FailsOnly e (n.clause id) :=
  Arena.failsOnly_get stored

/-! ## Storing -/

/-- A clause of two literals or more, of variables that exist, can be stored and watched. -/
theorem failsOnly_addClause {lits : List Lit} {learnt : Bool} (width : e .widthExceeded)
    (z : n.Sized) (two : 2 ≤ lits.length) (known : ∀ l ∈ lits, l.var.index < n.trail.numVars) :
    FailsOnly e (n.addClause lits learnt) := by
  match lits, two with
  | a :: b :: rest, _ =>
      refine .bind (.ok _) fun c made => ?_
      obtain ⟨lits, -⟩ := Clause.lits_ofLits made
      rw [← lits] at known
      refine .bind (Arena.failsOnly_alloc width) fun ⟨arena, id⟩ allocated => ?_
      have stored : arena.body? id = some c.body := by rw [Arena.body?_alloc allocated, if_pos rfl]
      have attaches : ∀ {m : Network}, m.db.arena = arena → m.trail = n.trail →
          m.watches = n.watches → m.observed = n.observed → FailsOnly e (m.attach id) := by
        intro m here trail watches observed
        have z₁ : m.Sized := ⟨by rw [watches, trail, z.watches], by rw [observed, trail, z.observed]⟩
        refine .bind (failsOnly_clause (c := c.body) (by unfold body?; rw [here, stored])) ?_
        intro d read
        have own : d.body = c.body := by
          have stored' := Arena.body?_of_get read
          rw [here, stored] at stored'
          exact (Option.some.inj stored').symm
        have known₁ : ∀ l ∈ d.lits, l.var.index < m.trail.numVars := by
          rw [trail, ← Clause.body_lits, own]
          exact known
        refine .bind (failsOnly_watch z₁ (known₁ d.first d.first_mem)) fun m₁ watched => ?_
        obtain ⟨size, whole⟩ := watch_eq_ok watched
        have z₂ : m₁.Sized :=
          ⟨by rw [size, whole]; exact z₁.watches, by rw [whole]; exact z₁.observed⟩
        refine .bind (failsOnly_watch z₂ ?_) fun m₂ _ => failsOnly_retally (.ok _)
        rw [whole]
        exact known₁ d.second d.second_mem
      refine .bind (attaches ?_ ?_ ?_ ?_) fun _ _ => .ok _ <;> split <;> rfl

/-! ## Counting uses -/

/-- The listed clauses are learnt ones, as scaling asks of each. -/
theorem failsOnly_scaleActivities {arena : Arena} {ids : List ClauseId}
    (learnt : ∀ id ∈ ids, ∃ c, arena.body? id = some c ∧ c.learnt = true) :
    FailsOnly e (scaleActivities arena ids) := by
  induction ids generalizing arena with
  | nil => exact .ok _
  | cons id ids ih =>
      obtain ⟨c, stored, kind⟩ := learnt id List.mem_cons_self
      refine .bind (Arena.failsOnly_get stored) fun d read => ?_
      cases stored.symm.trans (Arena.body?_of_get read)
      refine .bind (.ensure kind) fun _ _ => ?_
      refine .bind (Arena.failsOnly_set stored) fun arena' written => ih fun id' later => ?_
      obtain ⟨-, body⟩ := Arena.body?_activity read written
      rw [body]
      exact learnt id' (List.mem_cons_of_mem id later)

/-- A use of a learnt clause can be counted; the clauses that may have to be scaled are those of
its row. -/
theorem failsOnly_bumpClause (x : n.view.Indexed) (stored : n.body? id = some c)
    (kind : c.learnt = true) : FailsOnly e (n.bumpClause id) := by
  refine .bind (failsOnly_clause stored) fun d read => ?_
  cases stored.symm.trans (Arena.body?_of_get read)
  refine .bind (.ensure kind) fun _ _ => ?_
  refine .bind (Arena.failsOnly_set stored) fun arena written => ?_
  obtain ⟨-, body⟩ := Arena.body?_activity read written
  refine .ite (fun _ => ?_) fun _ => .ok _
  refine .bind (failsOnly_scaleActivities fun id' inside => ?_) fun _ _ => .ok _
  rw [body]
  exact (x.listed true id').mp inside

/-! ## Giving a clause up -/

/-- Both watchers of a live clause are found, and its literals were counted. -/
theorem failsOnly_removeClause (core : n.Core) (x : View.Indexed ⟨n, n.watchers, rows⟩)
    (known : ∀ l ∈ c.lits, l.var.index < n.trail.numVars) (stored : n.body? id = some c) :
    FailsOnly e (n.removeClause id) := by
  refine .bind (failsOnly_detach core x stored) fun n₁ detached => ?_
  have u := unwatched_detach detached
  have stored₁ : n₁.body? id = some c := by
    unfold body?
    rw [u.arena]
    exact stored
  refine .bind (failsOnly_clause stored₁) fun d read => ?_
  cases stored₁.symm.trans (Arena.body?_of_get read)
  have low : d.first.var.index < n₁.trail.numVars := u.trail ▸ known _ d.first_mem
  have wf : n₁.trail.WF := u.trail ▸ core.trail
  have releases : FailsOnly e (n₁.releaseReason id d) := by
    refine .bind (Trail.failsOnly_reasonOf wf low) fun r _ => ?_
    refine .bind (Trail.failsOnly_litValue low) fun v _ => .ite (fun _ => ?_) fun _ => .ok _
    have covered : d.first.var.index < n₁.trail.origins.size :=
      Nat.lt_of_lt_of_eq low wf.sizes.symm
    refine .bind (.bind (DenseMap.failsOnly_get covered) fun o _ => ?_) fun _ _ => .ok _
    exact .bind (DenseMap.failsOnly_set covered) fun _ _ => .ok _
  refine .bind releases fun n₂ released => ?_
  obtain ⟨trail, -, rfl⟩ := releaseReason_eq_ok released
  exact .bind (Arena.failsOnly_free stored₁) fun _ _ => .ok _

/-! ## Trimming -/

theorem failsOnly_anyHolds {t : Trail} {ls : List Lit}
    (known : ∀ l ∈ ls, l.var.index < t.numVars) : FailsOnly e (anyHolds t ls) := by
  induction ls with
  | nil => exact .ok _
  | cons l ls ih =>
      refine .bind (Trail.failsOnly_litValue (known l List.mem_cons_self)) fun x _ => ?_
      exact .ite (fun _ => .ok _) fun _ => ih fun l' later => known l' (List.mem_cons_of_mem l later)

theorem anyHolds_false {t : Trail} {ls : List Lit} (h : anyHolds t ls = .ok false) :
    ∀ l ∈ ls, ∃ x, t.litValue l = .ok x ∧ x ≠ .holds := by
  induction ls with
  | nil => simp
  | cons l ls ih =>
      obtain ⟨x, read, h⟩ := bind_eq_ok.mp h
      split at h
      next => cases h
      next open_ =>
        intro m hm
        rcases List.mem_cons.mp hm with rfl | later
        · exact ⟨x, read, open_⟩
        · exact ih h m later

/-- If the search for a true literal finds none, none is on the trail. -/
theorem not_true_of_anyHolds {t : Trail} {ls : List Lit} (w : t.WF)
    (h : anyHolds t ls = .ok false) : ∀ l ∈ ls, l ∉ t.lits := by
  intro l inside true_
  obtain ⟨x, read, open_⟩ := anyHolds_false h l inside
  exact open_ (Except.ok.inj (read.symm.trans (w.holds_iff.mpr true_)))

/-- The literals that are cut off are false, and at the root level this is for good. -/
theorem failsOnly_cutFalse {t : Trail} {ls : List Lit} (w : t.WF) (root : t.level = 0)
    (known : ∀ l ∈ ls, l.var.index < t.numVars) : FailsOnly e (cutFalse t ls) := by
  induction size : ls.length using Nat.strongRecOn generalizing ls with
  | ind k ih =>
    cases ls with
    | nil =>
        unfold cutFalse
        exact .ok _
    | cons l ls =>
        have low := known l List.mem_cons_self
        have later : ∀ m ∈ ls, m.var.index < t.numVars := fun m hm =>
          known m (List.mem_cons_of_mem l hm)
        unfold cutFalse
        refine .bind (Trail.failsOnly_litValue low) fun x read => .ite (fun false_ => ?_) ?_
        · subst false_
          refine .bind (Trail.failsOnly_levelOf w low) fun level levelOf => ?_
          have bound := w.levelOf_le (w.fails_iff.mp read) levelOf
          have zero : level = 0 := by omega
          refine .bind (.ensure (decide_eq_true zero)) fun _ _ => ?_
          split
          next last ends =>
            obtain ⟨init, rfl⟩ := List.getLast?_eq_some_iff.mp ends
            rw [List.dropLast_concat]
            refine ih _ (by simp [← size]) (fun m hm => later m ?_) rfl
            simpa [or_comm] using hm
          next => exact .ok _
        · exact fun _ => .bind (ih ls.length (by simp [← size]) later rfl) fun _ _ => .ok _

/-- A clause without a true literal has no false watched literal. -/
def Watchful (n : Network) : Prop := ∀ {id c}, n.body? id = some c →
  (∀ l ∈ c.lits, l ∉ n.trail.lits) → -c.first ∉ n.trail.lits ∧ -c.second ∉ n.trail.lits

/-- When everything has been propagated, a false watched literal has been answered by a true one. -/
theorem Processed.watchful (p : n.Processed noneDue)
    (quiet : n.trail.head = n.trail.lits.size) : n.Watchful := by
  intro id c stored open_
  have taken : n.trail.lits.toList.take n.trail.head = n.trail.lits.toList :=
    List.take_of_length_le (by simp [quiet])
  have calm : ∀ x, x = c.first ∨ x = c.second → -x ∉ n.trail.lits := by
    intro x watched false_
    rcases p stored watched (by rw [taken]; exact Array.mem_toList_iff.mpr false_) with
      none_ | ⟨y, inside, true_⟩
    · exact none_
    · exact open_ y inside true_
  exact ⟨calm _ (.inl rfl), calm _ (.inr rfl)⟩

/-- Cutting false literals off leaves the watched ones, and makes no literal true. -/
theorem Watchful.trimmed (h : n.Watchful) (w : n.trail.WF) (lits : n'.trail.lits = n.trail.lits)
    (kept : ∀ {id b'}, n'.body? id = some b' → ∃ b, n.body? id = some b ∧
      Trimmed (n.trail.upTo 0) b b') : n'.Watchful := by
  intro id b' stored open_
  rw [lits] at open_ ⊢
  obtain ⟨b, old, trimmed⟩ := kept stored
  rw [trimmed.first, trimmed.second]
  refine h old fun l inside true_ => ?_
  rcases trimmed.cut l inside with still | false_
  · exact open_ l still true_
  · exact w.not_both true_ (Trail.mem_of_mem_upTo false_)

theorem Drops.watchful (d : n.Drops id c n') (w : n.trail.WF) (h : n.Watchful) :
    n'.Watchful := by
  refine h.trimmed w d.trail.lits fun {j b} stored => ⟨b, ?_, .refl b⟩
  rw [d.body] at stored
  split at stored
  · cases stored
  · exact stored

/-- A clause that is trimmed keeps its watched literals. -/
theorem Trims.watchful {rest : List Lit} (t : n.Trims id c rest n') (w : n.trail.WF)
    (h : n.Watchful) : n'.Watchful := by
  refine h.trimmed w (by rw [t.trail]) fun {j b} stored => ?_
  rw [t.body] at stored
  split at stored
  next same =>
    subst same
    cases stored
    exact ⟨c, t.stored, t.trimmed⟩
  next => exact ⟨b, stored, .refl b⟩

/-- The watched literals of a clause without a true literal have no value, as trimming asks. -/
theorem failsOnly_trimClause (core : n.Core) (root : n.trail.level = 0)
    (x : View.Indexed ⟨n, n.watchers, rows⟩)
    (known : ∀ l ∈ c.lits, l.var.index < n.trail.numVars) (stored : n.body? id = some c)
    (open_ : ∀ l ∈ c.lits, l ∉ n.trail.lits) (watchful : n.Watchful) :
    FailsOnly e (n.trimClause id) := by
  refine .bind (failsOnly_clause stored) fun d read => ?_
  cases stored.symm.trans (Arena.body?_of_get read)
  obtain ⟨firstOpen, secondOpen⟩ := watchful stored open_
  have unknown : ∀ l ∈ d.lits, -l ∉ n.trail.lits → ∀ v, n.trail.litValue l = .ok v →
      decide (v = .unknown) = true := fun l hl notFalse v value =>
    decide_eq_true ((core.trail.unknown_iff value).mpr ⟨open_ l hl, notFalse⟩)
  refine .bind (Trail.failsOnly_litValue (known _ d.first_mem)) fun v value => ?_
  refine .bind (.ensure (unknown _ d.first_mem firstOpen v value)) fun _ _ => ?_
  refine .bind (Trail.failsOnly_litValue (known _ d.second_mem)) fun v' value' => ?_
  refine .bind (.ensure (unknown _ d.second_mem secondOpen v' value')) fun _ _ => ?_
  have knownRest : ∀ l ∈ d.rest, l.var.index < n.trail.numVars := fun l hl =>
    known l (List.mem_cons_of_mem _ (List.mem_cons_of_mem _ hl))
  refine .bind (failsOnly_cutFalse core.trail root knownRest) fun rest cut => ?_
  obtain ⟨-, shorter⟩ := trimmed_cutFalse core.trail cut
  refine .bind (Arena.failsOnly_shrink stored shorter) fun arena _ => failsOnly_retally ?_
  obtain ⟨-, literals⟩ := counted_tally x stored
  have literals : d.rest.length + 2 ≤ (n.tally d.learnt).literals := literals
  refine .bind (.checkedSub ?_) fun _ _ => .ok _
  change d.rest.length - rest.length ≤ (n.tally d.learnt).literals
  omega

/-! ## The walks along a row -/

/-- By induction along the row, every clause can be removed or trimmed. -/
theorem failsOnly_sweep (learnt : Bool) {kept : Array ClauseId} {ids : List ClauseId}
    (core : n.Core) (sturdy : View.Sturdy ⟨n, n.watchers, rows⟩) (root : n.trail.level = 0)
    (watchful : n.Watchful) (here : rows learnt = kept.toList ++ ids) :
    FailsOnly e (n.sweep kept ids) := by
  induction ids generalizing n kept rows with
  | nil => exact .ok _
  | cons id ids ih =>
      have listed : id ∈ rows learnt := here ▸ List.mem_append_right _ List.mem_cons_self
      obtain ⟨c, stored, -⟩ := (sturdy.indexed.listed learnt id).mp listed
      have stored : n.body? id = some c := stored
      have known := sturdy.ranged.clauses stored
      refine .bind (failsOnly_clause stored) fun d read => ?_
      cases stored.symm.trans (Arena.body?_of_get read)
      refine .bind (failsOnly_anyHolds known) fun satisfied tested => ?_
      cases satisfied with
      | true =>
          have logged : View.Indexed ⟨n.log (.removeSatisfied d.lits), n.watchers, rows⟩ :=
            sturdy.indexed.frame_db rfl
          refine .bind (failsOnly_removeClause ⟨core.trail, core.distinct⟩ logged known stored)
            fun n₁ removed => ?_
          obtain ⟨chain, drops, -⟩ := removeSatisfied_chain core root here read tested removed
          exact ih (View.Chain.core chain core) (chain.sturdy core sturdy)
            (drops.trail.level.trans root) (drops.watchful core.trail watchful)
            (Function.update_self ..)
      | false =>
          have open_ := not_true_of_anyHolds core.trail tested
          refine .bind (failsOnly_trimClause core root sturdy.indexed known stored open_ watchful)
            fun n₁ trimmed => ?_
          obtain ⟨step, ⟨c, rest, trims⟩, -⟩ := trimClause_step core root trimmed
          exact ih (step.core core) (step.sturdy core sturdy) (by rw [trims.trail, root])
            (trims.watchful core.trail watchful) (by simpa using here)

/-- Both rows are walked along, the problem clauses only if that is asked for. -/
theorem failsOnly_sweepAll {both : Bool} (w : n.WF n.Lists) (sturdy : n.view.Sturdy)
    (root : n.trail.level = 0) (watchful : n.Watchful) : FailsOnly e (n.sweepAll both) := by
  have walk : FailsOnly e (n.sweep #[] n.db.learnts.toList) :=
    failsOnly_sweep true w.core sturdy root watchful (by simp [Network.row])
  refine .bind (.bind walk fun _ _ => .ok _) fun n₁ first => .ite (fun _ => ?_) fun _ => .ok _
  obtain ⟨chain, root₁⟩ := sweepLearnts_chain w.core root first
  obtain ⟨⟨n₂, learnts⟩, swept, first⟩ := bind_eq_ok.mp first
  cases first
  have r := reduces_sweep w root swept
  have watchful₁ : n₂.Watchful := watchful.trimmed w.trail r.trail.lits r.kept
  refine .bind (failsOnly_sweep false (View.Chain.core chain w.core)
    (chain.sturdy w.core sturdy) root₁ watchful₁ (by simp [Network.row])) fun _ _ => .ok _

/-! ## Learnt clauses of little use -/

theorem failsOnly_locked (t : n.trail.WF) (known : ∀ l ∈ c.lits, l.var.index < n.trail.numVars)
    (stored : n.body? id = some c) : FailsOnly e (n.locked id) := by
  refine .bind (failsOnly_clause stored) fun d read => ?_
  cases stored.symm.trans (Arena.body?_of_get read)
  have low := known _ d.first_mem
  refine .bind (Trail.failsOnly_litValue low) fun v _ => .ite (fun _ => .ok _) fun _ => ?_
  refine .bind (Trail.failsOnly_reasonOf t low) fun r _ => ?_
  cases r with
  | decision => exact .ok _
  | binary a => exact .ok _
  | ternary a b =>
      dsimp only
      split <;> exact .ok _
  | clause r => exact .ok _

/-- By induction along the candidates, which are live as long as they have not been met. -/
theorem failsOnly_prune {half i : Nat} {bound : Float} {kept : Array ClauseId}
    {cs : List Candidate} (core : n.Core) (sturdy : View.Sturdy ⟨n, n.watchers, rows⟩)
    (here : rows true = kept.toList ++ cs.map (·.id)) :
    FailsOnly e (n.prune half bound kept i cs) := by
  induction cs generalizing n kept rows i with
  | nil => exact .ok _
  | cons c cs ih =>
      have listed : c.id ∈ rows true := here ▸ List.mem_append_right _ List.mem_cons_self
      obtain ⟨b, stored, kind⟩ := (sturdy.indexed.listed true c.id).mp listed
      have stored : n.body? c.id = some b := stored
      have known := sturdy.ranged.clauses stored
      refine .bind (failsOnly_locked core.trail known stored) fun locked tested => ?_
      dsimp only
      refine .ite (fun dropped => ?_) fun _ => ih core sturdy (by simpa using here)
      have idle : locked = false := by
        simp only [Bool.and_eq_true, Bool.not_eq_true'] at dropped
        exact dropped.1.2
      subst idle
      refine .bind (failsOnly_removeClause core sturdy.indexed known stored) fun n₁ removed => ?_
      obtain ⟨step, -, -⟩ := removeIdle_step core stored kind tested here removed
      exact ih (step.core core) (step.sturdy core sturdy) (Function.update_self ..)

/-- Only an activity that is not a number keeps the candidates from being compared. -/
theorem failsOnly_candidates {sort : List Candidate → List Candidate}
    (nan : e .incomparableActivities) (x : n.view.Indexed) : FailsOnly e (n.candidates sort) := by
  refine .bind (.mapM fun id inside => ?_) fun cs _ => .ite (fun _ => .throw nan) fun _ => .ok _
  obtain ⟨c, stored, kind⟩ := (x.listed true id).mp inside
  refine .bind (failsOnly_clause stored) fun d read => ?_
  cases stored.symm.trans (Arena.body?_of_get read)
  exact .bind (.ensure kind) fun _ _ => .ok _

/-- Every clause that is the reason of an assignment is stored. -/
theorem reasonsLive_true {ls : List Lit} (t : n.trail.WF) (g : n.view.Grounded)
    (assigned : ∀ l ∈ ls, l ∈ n.trail.lits) : n.reasonsLive ls = .ok true := by
  induction ls with
  | nil => rfl
  | cons l ls ih =>
      have true_ := assigned l List.mem_cons_self
      have rest := ih fun m later => assigned m (List.mem_cons_of_mem l later)
      obtain ⟨o, read⟩ := t.exists_origin true_
      have reason : n.trail.reasonOf l.var = .ok o.reason :=
        Trail.reasonOf_eq_ok.mpr ⟨o, read, rfl⟩
      unfold reasonsLive
      rw [reason]
      cases why : o.reason with
      | clause id =>
          rw [why] at reason
          obtain ⟨c, stored, -⟩ := g.named true_ reason
          have live : n.db.arena.contains id = true := contains_of_body? stored
          simpa [Bind.bind, Except.bind, live] using rest
      | _ => simpa [Bind.bind, Except.bind] using rest

/-- Learnt clauses can be given up in any order, unless they cannot be compared. -/
theorem failsOnly_reduceLearnts {sort : List Candidate → List Candidate}
    (perm : ∀ cs, (sort cs).Perm cs) (nan : e .incomparableActivities) (core : n.Core)
    (sturdy : n.view.Sturdy) : FailsOnly e (n.reduceLearnts sort) := by
  have first : View.Step n.view (n.log .reduceStart).view := log_step n .reduceStart
  have core₁ := first.core core
  have sturdy₁ := first.sturdy core sturdy
  refine .bind (failsOnly_candidates nan sturdy₁.indexed) fun cs given => ?_
  have listed := enlists_candidates perm given
  have sorted := listed.step.sturdy core₁ sturdy₁
  refine .bind (failsOnly_prune core₁ sorted (by simp)) fun ⟨n₁, learnts⟩ pruned => ?_
  have chain := pruned_chain core₁ listed pruned
  have chain := chain.tail (log_step _ (.reduceDone (n.db.learnts.size - learnts.size)))
  have core₂ := View.Chain.core chain core₁
  have sturdy₂ := View.Chain.sturdy chain core₁ sturdy₁
  have live := reasonsLive_true core₂.trail sturdy₂.grounded fun l => Array.mem_toList_iff.mp
  refine .bind_ok live ?_
  exact .bind (.ensure rfl) fun _ _ => .ok _

/-! ## Compaction -/

/-- Where all reasons are live, none is forgotten. -/
theorem exists_liveReasons {arena : Arena} {t : Trail} {ls : List Lit} (w : t.WF)
    (assigned : ∀ l ∈ ls, l ∈ t.lits)
    (named : ∀ {l id}, l ∈ t.lits → t.reasonOf l.var = .ok (.clause id) →
      arena.contains id = true) :
    ∃ ids, liveReasons arena ls t = .ok (t, ids) ∧ ∀ id ∈ ids, arena.contains id = true := by
  induction ls with
  | nil => exact ⟨[], rfl, by simp⟩
  | cons l ls ih =>
      have true_ := assigned l List.mem_cons_self
      obtain ⟨ids, rest, live⟩ := ih fun m later => assigned m (List.mem_cons_of_mem l later)
      obtain ⟨o, read⟩ := w.exists_origin true_
      have reason : t.reasonOf l.var = .ok o.reason := Trail.reasonOf_eq_ok.mpr ⟨o, read, rfl⟩
      unfold liveReasons
      rw [reason]
      cases why : o.reason with
      | clause id =>
          rw [why] at reason
          have here := named true_ reason
          refine ⟨id :: ids, ?_, fun j inside => ?_⟩
          · simp [Bind.bind, Except.bind, here, rest, Pure.pure, Except.pure]
          · rcases List.mem_cons.mp inside with rfl | later
            · exact here
            · exact live j later
      | _ => exact ⟨ids, rest, live⟩

/-- A collection finds every clause that a watcher, a reason or a row names; it fails only if its
report is too large. -/
theorem failsOnly_collect (large : e .reportTooLarge) (w : n.WF n.Lists)
    (sturdy : n.view.Sturdy) : FailsOnly e n.collect := by
  have x := sturdy.indexed
  have live : ∀ {id}, id ∈ n.ids → n.db.arena.contains id = true := fun inside =>
    have ⟨_, stored⟩ := (mem_ids x).mp inside
    contains_of_body? stored
  have words : n.db.arena.wasted ≤ n.db.arena.size := by
    rw [show n.db.arena.size = _ from x.words]
    exact Nat.le_add_right _ _
  obtain ⟨watched, ordered, counts⟩ := exists_watchedOrder w x sturdy.ranged
  obtain ⟨reasons, found, liveReasons_⟩ := exists_liveReasons w.trail
    (fun l => Array.mem_toList_iff.mp) fun {l id} true_ reason =>
      have ⟨_, stored, _⟩ := sturdy.grounded.named true_ reason
      contains_of_body? (a := n.db.arena) stored
  refine .bind (.checkedSub words) fun _ _ => ?_
  refine .bind_ok ordered ?_
  refine .bind_ok found ?_
  refine .bind (Arena.failsOnly_moveAll fun id inside => ?_) fun arena _ =>
    .ite (fun _ => .ok _) fun _ => .throw large
  simp only [List.append_assoc, List.mem_append] at inside
  rcases inside with inside | inside | inside | inside
  · refine live (by_contra fun out => ?_)
    have none_ := counts id
    rw [if_neg out] at none_
    exact List.count_eq_zero.mp none_ inside
  · exact liveReasons_ id inside
  · exact live (List.mem_append_right _ inside)
  · exact live (List.mem_append_left _ inside)

end Network

end Cdcl
