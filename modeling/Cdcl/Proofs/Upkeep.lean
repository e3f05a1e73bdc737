import Cdcl.Proofs.Passes

/-!
# Upkeep as chains

Clauses are given up, trimmed and moved together by steps of a view.

* `removeClause_drops`, `trimClause_trims` — one operation is one step;
* `sweep_chain`, `prune_chain` — the walks along a row, which is rebuilt on the way;
* `sweepAll_chain`, `reduceLearnts_chain`, `collect_step` — the operations on the whole
  network.
-/

namespace Cdcl

open View (Chain Step Sturdy)

theorem Tally.add_of_drop {t t' : Tally} {size : Nat} (h : t.drop size = .ok t') :
    t = t'.add size := by
  obtain ⟨clauses, first, h⟩ := bind_eq_ok.mp h
  obtain ⟨literals, second, h⟩ := bind_eq_ok.mp h
  cases h
  cases t
  rw [checkedSub_eq_ok] at first second
  simp only at first second
  simp only [Tally.add, Tally.mk.injEq]
  omega

namespace Trail

/-- Only the reason of the variable itself changes. -/
theorem reasonOf_forgetReason {t t' : Trail} {v : Var} (h : t.forgetReason v = .ok t')
    (u : Var) : t'.reasonOf u = if u = v then .ok .decision else t.reasonOf u := by
  obtain ⟨o, read, h⟩ := bind_eq_ok.mp h
  obtain ⟨origins, written, h⟩ := bind_eq_ok.mp h
  cases h
  unfold reasonOf
  rw [DenseMap.get_set written]
  split <;> rfl

end Trail

namespace Network

variable {n n' : Network} {id : ClauseId} {c : Clause}

/-! ## Giving a clause up -/

/-- The first watcher of the clause is taken out of the list. -/
theorem watchers_unwatch {l : Lit} (h : n.unwatch l id = .ok n') (j : Lit) :
    n'.watchers j = if j = l then (n.watchers j).eraseP (·.clause = id) else n.watchers j := by
  obtain ⟨list, i, watches, read, found, changed, rfl⟩ := unwatch_eq_ok h
  obtain ⟨old, read', written⟩ := DenseMap.modify_eq_ok.mp changed
  cases read.symm.trans read'
  have place : list.toList.findIdx? (·.clause = id) = some i := by
    rw [← found]
    cases list
    simp
  unfold watchers
  simp only [DenseMap.get_set written]
  by_cases same : j = l
  · subst same
    rw [if_pos rfl, if_pos rfl, read, List.eraseP_eq_eraseIdx, place]
    exact Array.toList_eraseIdxIfInBounds
  · rw [if_neg same, if_neg same]

theorem db_unwatch {l : Lit} (h : n.unwatch l id = .ok n') : n'.db = n.db := by
  obtain ⟨list, i, watches, -, -, -, rfl⟩ := unwatch_eq_ok h
  rfl

/-- Detaching a clause takes its two watchers out and subtracts it from its tally. -/
theorem unposted_detach (stored : n.body? id = some c) (apart : c.first ≠ c.second)
    (h : n.detach id = .ok n') : n'.watchers = View.unpost n.watchers id c ∧ n'.row = n.row ∧
      ∀ learnt, n.tally learnt =
        if learnt = c.learnt then (n'.tally learnt).add c.size else n'.tally learnt := by
  obtain ⟨d, read, h⟩ := bind_eq_ok.mp h
  obtain ⟨n₁, first, h⟩ := bind_eq_ok.mp h
  obtain ⟨n₂, second, h⟩ := bind_eq_ok.mp h
  have own : d.body = c := Option.some.inj ((Arena.body?_of_get read).symm.trans stored)
  have firstEq : d.first = c.first := by rw [← own]; rfl
  have secondEq : d.second = c.second := by rw [← own]; rfl
  have kind : d.learnt = c.learnt := by rw [← own]; rfl
  have size : d.size = c.size := by rw [← own]; rfl
  have db : n₂.db = n.db := (db_unwatch second).trans (db_unwatch first)
  obtain ⟨rows_eq, lists_eq, -⟩ := row_retally h
  obtain ⟨counted, others⟩ := tally_retally h
  rw [kind] at counted others
  have tally : n₂.tally = n.tally := by funext b; unfold Network.tally; rw [db]
  have row : n₂.row = n.row := by funext b; unfold Network.row; rw [db]
  refine ⟨?_, rows_eq.trans row, fun learnt => ?_⟩
  · rw [lists_eq]
    funext l
    rw [watchers_unwatch second, watchers_unwatch first, firstEq, secondEq]
    unfold View.unpost
    by_cases one : l = -c.first
    · have other : l ≠ -c.second := fun e => apart (Lit.neg_inj.mp (one.symm.trans e))
      rw [if_neg other, if_pos one, if_pos (.inl one)]
    · by_cases two : l = -c.second
      · rw [if_pos two, if_neg one, if_pos (.inr two)]
      · rw [if_neg two, if_neg one, if_neg (fun e => e.elim one two)]
  · rw [← tally]
    split
    next same =>
      subst same
      rw [← size]
      exact Tally.add_of_drop counted
    next other => exact (others learnt other).symm

/-- What is known of the reasons after one has been released. -/
theorem reasonOf_releaseReason (w : n.trail.WF) (h : n.releaseReason id c = .ok n') :
    (∀ l ∈ n.trail.lits, c.first = l → n'.trail.reasonOf l.var ≠ .ok (.clause id)) ∧
      (∀ v r, r ≠ .clause id → n.trail.reasonOf v = .ok r → n'.trail.reasonOf v = .ok r) ∧
      n' = { n with trail := n'.trail } := by
  obtain ⟨r, reason, h⟩ := bind_eq_ok.mp h
  obtain ⟨x, value, h⟩ := bind_eq_ok.mp h
  split at h
  next both =>
    obtain ⟨trail, forgotten, h⟩ := bind_eq_ok.mp h
    cases h
    simp only [Bool.and_eq_true, decide_eq_true_eq] at both
    have named : r = .clause id := both.1
    subst named
    refine ⟨fun l _ first => ?_, fun v s other old => ?_, rfl⟩
    · rw [← first, Trail.reasonOf_forgetReason forgotten, if_pos rfl]
      exact fun e => nomatch e
    · rw [Trail.reasonOf_forgetReason forgotten]
      split
      next same =>
        rw [same, reason] at old
        exact absurd (Except.ok.inj old).symm other
      next => exact old
  next kept =>
    cases h
    refine ⟨fun l inside first named => ?_, fun _ _ _ old => old, rfl⟩
    subst first
    cases reason.symm.trans named
    cases value.symm.trans (w.holds_iff.mpr inside)
    exact kept (by simp)

/-- A clause that is not locked is not named by its first literal. -/
theorem not_named_of_unlocked (w : n.trail.WF) (stored : n.body? id = some c)
    (h : n.locked id = .ok false) (inside : c.first ∈ n.trail.lits) :
    n.trail.reasonOf c.first.var ≠ .ok (.clause id) := by
  intro named
  obtain ⟨d, read, h⟩ := bind_eq_ok.mp h
  have own : d.body = c := Option.some.inj ((Arena.body?_of_get read).symm.trans stored)
  have first : d.first = c.first := by rw [← own]; rfl
  obtain ⟨x, value, h⟩ := bind_eq_ok.mp h
  rw [first, w.holds_iff.mpr inside] at value
  cases value
  rw [if_neg (by simp)] at h
  obtain ⟨r, reason, h⟩ := bind_eq_ok.mp h
  rw [first, named] at reason
  cases reason
  simp [Pure.pure, Except.pure] at h

/-- No reason is forgotten along with a clause that is not locked. -/
theorem trail_removeClause (w : n.trail.WF) (stored : n.body? id = some c)
    (unlocked : n.locked id = .ok false) (h : n.removeClause id = .ok n') :
    n'.trail = n.trail := by
  obtain ⟨n₁, d, n₂, arena, detached, read, released, -, rfl⟩ := removeClause_eq_ok h
  have u := unwatched_detach detached
  have first : d.first = c.first := by
    have stored₁ : n₁.body? id = some c := by unfold body?; rw [u.arena]; exact stored
    rw [← Option.some.inj ((Arena.body?_of_get read).symm.trans stored₁)]
    rfl
  obtain ⟨r, reason, released⟩ := bind_eq_ok.mp released
  obtain ⟨x, value, released⟩ := bind_eq_ok.mp released
  split at released
  next both =>
    simp only [Bool.and_eq_true, decide_eq_true_eq] at both
    obtain ⟨rfl, rfl⟩ := both
    rw [u.trail, first] at value reason
    exact absurd reason (not_named_of_unlocked w stored unlocked (w.holds_iff.mp value))
  next =>
    cases released
    exact u.trail

/-- A clause that is given up cannot be looked up any more, and the others can. -/
theorem clause_removeClause (h : n.removeClause id = .ok n') (j : ClauseId) :
    n'.clause j = if j = id then .error .conditionBroken else n.clause j := by
  obtain ⟨n₁, d, n₂, arena, detached, -, released, freed, rfl⟩ := removeClause_eq_ok h
  obtain ⟨trail, -, rfl⟩ := releaseReason_eq_ok released
  have same := (unwatched_detach detached).arena
  change arena.get j = if j = id then _ else n.db.arena.get j
  rw [Arena.get_eq, Arena.get_eq, Arena.clause?_free freed, ← same]
  split <;> rfl

/-- Giving a clause up is a step, at the root level or if it is a learnt clause that is no
reason. -/
theorem removeClause_drops (core : n.Core) (stored : n.body? id = some c)
    (needless : c.learnt = true ∨ ∃ y ∈ c.lits, y ∈ n.trail.upTo 0)
    (idle : n.trail.level = 0 ∨ (n.locked id = .ok false ∧ c.learnt = true))
    (h : n.removeClause id = .ok n') :
    n.Drops id c n' ∧ n'.watchers = View.unpost n.watchers id c ∧ n'.row = n.row := by
  have r := removes h
  have still := idle.imp_right fun ⟨unlocked, learnt⟩ =>
    And.intro (trail_removeClause core.trail stored unlocked h) learnt
  obtain ⟨n₁, d, n₂, arena, detached, read, released, freed, rfl⟩ := removeClause_eq_ok h
  have u := unwatched_detach detached
  obtain ⟨lists, rows, tally⟩ :=
    unposted_detach stored (Clause.first_ne_second (core.distinct stored)) detached
  have stored₁ : n₁.body? id = some c := by unfold body?; rw [u.arena]; exact stored
  have own : d.body = c := Option.some.inj ((Arena.body?_of_get read).symm.trans stored₁)
  have first : d.first = c.first := by rw [← own]; rfl
  obtain ⟨gone, kept, alone⟩ := reasonOf_releaseReason (u.trail ▸ core.trail) released
  rw [u.trail] at gone kept
  have arena₂ : n₂.db.arena = n.db.arena := by rw [alone]; exact u.arena
  obtain ⟨e, read', size, wasted⟩ := Arena.words_free freed
  have own' : e.body = c := by
    rw [arena₂] at read'
    exact Option.some.inj ((Arena.body?_of_get read').symm.trans stored)
  have words : e.words = c.words := by rw [← own']; rfl
  refine ⟨⟨r, arena₂ ▸ .single (.free freed), stored, still, needless,
    fun l inside same => gone l inside (first.trans same),
    fun l inside r other old => kept l.var r other old, ?_, ?_, fun j other => ?_,
    fun learnt => ?_⟩, ?_, ?_⟩
  · exact size.trans (by rw [arena₂])
  · rw [← arena₂, ← words]
    exact wasted
  · rw [← arena₂]
    exact (Arena.place?_free freed j).trans (if_neg other)
  · rw [tally]
    rw [alone]
    rfl
  · rw [← lists]
    refine watchers_congr ?_
    rw [alone]
  · rw [← rows, alone]
    rfl

/-! ## Trimming -/

/-- Trimming a clause is a step. -/
theorem trimClause_trims (w : n.trail.WF) (root : n.trail.level = 0)
    (h : n.trimClause id = .ok n') : ∃ c rest, n.Trims id c rest n' ∧ n'.row = n.row := by
  obtain ⟨d, rest, arena, read, cut, shrunk, h⟩ := trimClause_eq_ok h
  obtain ⟨trimmed, shorter⟩ := trimmed_cutFalse (c := d.body) w cut
  obtain ⟨e, read', slots, body⟩ := Arena.body?_shrink shrunk
  obtain ⟨e', read'', -, size, wasted⟩ := Arena.words_shrink shrunk
  cases read.symm.trans read'
  cases read.symm.trans read''
  obtain ⟨rows_eq, -, arena_eq⟩ := row_retally h
  obtain ⟨counted, others⟩ := tally_retally h
  obtain ⟨_, _, whole⟩ := retally_eq_ok h
  obtain ⟨literals, left, counted⟩ := bind_eq_ok.mp counted
  rw [checkedSub_eq_ok] at left
  have same := Except.ok.inj counted
  refine ⟨d.body, rest, ⟨arena_eq ▸ .single (.shrink shrunk), root, ?_, ?_, ?_,
    Arena.body?_of_get read, fun j => ?_, trimmed, shorter, ?_, ?_, fun j => ?_,
    fun learnt => ?_⟩, rows_eq⟩
  · rw [whole]
  · rw [whole]
  · rw [arena_eq]
    exact slots
  · unfold body?
    rw [arena_eq]
    exact body j
  · rw [arena_eq]
    exact size
  · rw [arena_eq]
    exact wasted
  · rw [arena_eq]
    exact Arena.place?_shrink shrunk j
  · change _ = if learnt = d.learnt then _ else _
    split
    next own =>
      subst own
      rw [← same]
      change (n.tally d.learnt).literals = _ at left
      change n.tally d.learnt = ⟨(n.tally d.learnt).clauses, literals + _⟩
      rw [Nat.add_comm literals]
      exact congrArg (Tally.mk _) left
    next other => exact (others learnt other).symm

/-! ## The walks along a row -/

section Walk

variable {learnt : Bool} {rows : Bool → List ClauseId} {before after : List ClauseId}

/-- A clause that a true literal satisfies at the root level is taken out of its row. -/
theorem removeSatisfied_chain {d : Clause} (core : n.Core) (root : n.trail.level = 0)
    (here : rows learnt = before ++ id :: after) (read : n.clause id = .ok d)
    (tested : anyHolds n.trail d.lits = .ok true)
    (h : (n.log (.removeSatisfied d.lits)).removeClause id = .ok n') :
    Chain ⟨n, n.watchers, rows⟩
        ⟨n', n'.watchers, Function.update rows learnt (before ++ after)⟩ ∧
      (n.log (.removeSatisfied d.lits)).Drops id d.body n' ∧ n'.row = n.row := by
  have first : Step ⟨n, n.watchers, rows⟩
      ⟨n.log (.removeSatisfied d.lits), n.watchers, rows⟩ :=
    .steady (v := ⟨n, n.watchers, rows⟩)
      ⟨rfl, rfl, rfl, rfl, fun low => low, rfl, fun _ => rfl, rfl, .of_eq rfl⟩
  obtain ⟨l, inside, holds⟩ := anyHolds_iff tested
  have true_ : l ∈ n.trail.upTo 0 := by
    rw [Trail.upTo_of_le (by omega)]
    exact Array.mem_toList_iff.mpr (core.trail.holds_iff.mp holds)
  obtain ⟨drops, lists, row⟩ := removeClause_drops (c := d.body) (first.core core)
    (Arena.body?_of_get read) (.inr ⟨l, inside, true_⟩) (.inl root) h
  have second : Step ⟨n.log (.removeSatisfied d.lits), n.watchers, rows⟩
      ⟨n', n'.watchers, Function.update rows learnt (before ++ after)⟩ := by
    rw [lists]
    exact .drop (v := ⟨n.log (.removeSatisfied d.lits), n.watchers, rows⟩) drops here
  exact ⟨(Relation.ReflTransGen.single first).tail second, drops, row⟩

/-- A clause that is trimmed at the root level stays in its row. -/
theorem trimClause_step (core : n.Core) (root : n.trail.level = 0)
    (h : n.trimClause id = .ok n') :
    Step ⟨n, n.watchers, rows⟩ ⟨n', n'.watchers, rows⟩ ∧ (∃ c rest, n.Trims id c rest n') ∧
      n'.row = n.row := by
  obtain ⟨c, rest, trims, row⟩ := trimClause_trims core.trail root h
  refine ⟨?_, ⟨c, rest, trims⟩, row⟩
  rw [watchers_congr trims.watches]
  exact .trim (v := ⟨n, n.watchers, rows⟩) trims

/-- A learnt clause that is no reason is taken out of its row. -/
theorem removeIdle_step (core : n.Core) (stored : n.body? id = some c) (kind : c.learnt = true)
    (idle : n.locked id = .ok false) (here : rows true = before ++ id :: after)
    (h : n.removeClause id = .ok n') :
    Step ⟨n, n.watchers, rows⟩
        ⟨n', n'.watchers, Function.update rows true (before ++ after)⟩ ∧
      n.Drops id c n' ∧ n'.row = n.row := by
  obtain ⟨drops, lists, row⟩ := removeClause_drops core stored (.inl kind) (.inr ⟨idle, kind⟩) h
  refine ⟨?_, drops, row⟩
  rw [lists]
  exact .drop (v := ⟨n, n.watchers, rows⟩) drops here

end Walk

/-- The walk along a row at the root level, with the rows that will be written back. -/
theorem sweep_chain (learnt : Bool) (rows : Bool → List ClauseId)
    {kept kept' : Array ClauseId} {ids : List ClauseId}
    (h : n.sweep kept ids = .ok (n', kept')) (core : n.Core) (root : n.trail.level = 0)
    (here : rows learnt = kept.toList ++ ids) :
    Chain ⟨n, n.watchers, rows⟩
        ⟨n', n'.watchers, Function.update rows learnt kept'.toList⟩ ∧
      n'.row = n.row ∧ n'.trail.level = 0 := by
  induction ids generalizing n kept rows with
  | nil =>
      cases h
      rw [List.append_nil] at here
      rw [← here, Function.update_eq_self]
      exact ⟨.refl, rfl, root⟩
  | cons id ids ih =>
      obtain ⟨d, read, h⟩ := bind_eq_ok.mp h
      obtain ⟨satisfied, tested, h⟩ := bind_eq_ok.mp h
      split at h
      next yes =>
        rw [yes] at tested
        obtain ⟨n₁, removed, h⟩ := bind_eq_ok.mp h
        obtain ⟨first, drops, row⟩ := removeSatisfied_chain core root here read tested removed
        obtain ⟨chain, row', root'⟩ :=
          ih (Function.update rows learnt (kept.toList ++ ids)) h (View.Chain.core first core)
            (drops.trail.level.trans root) (Function.update_self ..)
        rw [Function.update_idem] at chain
        exact ⟨first.trans chain, row'.trans row, root'⟩
      next =>
        obtain ⟨n₁, trimmed, h⟩ := bind_eq_ok.mp h
        obtain ⟨first, ⟨c, rest, trims⟩, row⟩ := trimClause_step core root trimmed
        obtain ⟨chain, row', root'⟩ := ih rows h (first.core core)
          (by rw [trims.trail]; exact root) (by simpa using here)
        exact ⟨(Relation.ReflTransGen.single first).trans chain, row'.trans row, root'⟩

/-- Writing the row of learnt clauses back ends the walk along it. -/
theorem writeLearnts_step (n : Network) (learnts : Array ClauseId) :
    Step ⟨n, n.watchers, Function.update n.row true learnts.toList⟩
      { n with db := { n.db with learnts } }.view := by
  have rows : Function.update n.row true learnts.toList =
      { n with db := { n.db with learnts } }.row := by
    funext learnt
    cases learnt <;> rfl
  rw [rows]
  exact Step.steady (v := ⟨n, n.watchers, { n with db := { n.db with learnts } }.row⟩)
    (n := { n with db := { n.db with learnts } })
    ⟨rfl, rfl, rfl, rfl, fun low => low, rfl, fun _ => rfl, rfl,
      .refl, fun _ => rfl, rfl, rfl, fun _ => rfl⟩

/-- Writing the row of problem clauses back ends the walk along it. -/
theorem writeProblem_step (n : Network) (problem : Array ClauseId) :
    Step ⟨n, n.watchers, Function.update n.row false problem.toList⟩
      { n with db := { n.db with problem } }.view := by
  have rows : Function.update n.row false problem.toList =
      { n with db := { n.db with problem } }.row := by
    funext learnt
    cases learnt <;> rfl
  rw [rows]
  exact Step.steady (v := ⟨n, n.watchers, { n with db := { n.db with problem } }.row⟩)
    (n := { n with db := { n.db with problem } })
    ⟨rfl, rfl, rfl, rfl, fun low => low, rfl, fun _ => rfl, rfl,
      .refl, fun _ => rfl, rfl, rfl, fun _ => rfl⟩

/-- Simplification walks along the learnt clauses at the root level. -/
theorem sweepLearnts_chain (core : n.Core) (root : n.trail.level = 0)
    (h : n.sweepLearnts = .ok n') : Chain n.view n'.view ∧ n'.trail.level = 0 := by
  obtain ⟨⟨n₁, learnts⟩, swept, h⟩ := bind_eq_ok.mp h
  cases h
  obtain ⟨chain, row, root₁⟩ := sweep_chain true n.row swept core root (by simp [Network.row])
  have written := writeLearnts_step n₁ learnts
  rw [row] at written
  exact ⟨chain.tail written, root₁⟩

/-- It may also walk along the problem clauses. -/
theorem sweepProblem_chain (core : n.Core) (root : n.trail.level = 0)
    (h : n.sweepProblem = .ok n') : Chain n.view n'.view := by
  obtain ⟨⟨n₁, problem⟩, swept, h⟩ := bind_eq_ok.mp h
  cases h
  obtain ⟨chain, row, -⟩ := sweep_chain false n.row swept core root (by simp [Network.row])
  have written := writeProblem_step n₁ problem
  rw [row] at written
  exact chain.tail written

/-- Simplification at the root level is a chain. -/
theorem sweepAll_chain {both : Bool} (core : n.Core) (root : n.trail.level = 0)
    (h : n.sweepAll both = .ok n') : Chain n.view n'.view := by
  obtain ⟨n₁, first, h⟩ := bind_eq_ok.mp h
  obtain ⟨chain, root₁⟩ := sweepLearnts_chain core root first
  split at h
  · exact chain.trans (sweepProblem_chain (View.Chain.core chain core) root₁ h)
  · cases h
    exact chain

/-! ## Learnt clauses of little use -/

/-- The walk that gives learnt clauses up, with the rows that will be written back. -/
theorem prune_chain (rows : Bool → List ClauseId) {half i : Nat} {bound : Float}
    {kept kept' : Array ClauseId} {cs : List Candidate}
    (h : n.prune half bound kept i cs = .ok (n', kept')) (core : n.Core)
    (kinds : ∀ c ∈ cs, ∀ b, n.body? c.id = some b → b.learnt = true)
    (here : rows true = kept.toList ++ cs.map (·.id)) :
    Chain ⟨n, n.watchers, rows⟩ ⟨n', n'.watchers, Function.update rows true kept'.toList⟩ ∧
      n'.row = n.row := by
  induction cs generalizing n kept rows i with
  | nil =>
      cases h
      rw [List.map_nil, List.append_nil] at here
      rw [← here, Function.update_eq_self]
      exact ⟨.refl, rfl⟩
  | cons c cs ih =>
      have kinds' : ∀ d ∈ cs, ∀ b, n.body? d.id = some b → b.learnt = true :=
        fun d hd => kinds d (List.mem_cons_of_mem c hd)
      obtain ⟨locked, tested, h⟩ := bind_eq_ok.mp h
      simp only at h
      split at h
      next dropped =>
        obtain ⟨n₁, removed, h⟩ := bind_eq_ok.mp h
        have idle : locked = false := by
          simp only [Bool.and_eq_true, Bool.not_eq_true'] at dropped
          exact dropped.1.2
        subst idle
        obtain ⟨d, read, -⟩ := bind_eq_ok.mp tested
        have stored : n.body? c.id = some d.body := Arena.body?_of_get read
        have learnt := kinds c List.mem_cons_self _ stored
        obtain ⟨step, drops, row⟩ := removeIdle_step core stored learnt tested here removed
        obtain ⟨chain, row'⟩ :=
          ih (Function.update rows true (kept.toList ++ cs.map (·.id))) h (step.core core)
            (fun e he b there => by
              rw [drops.body] at there
              split at there
              · cases there
              · exact kinds' e he b there)
            (Function.update_self ..)
        rw [Function.update_idem] at chain
        exact ⟨(Relation.ReflTransGen.single step).trans chain, row'.trans row⟩
      next => exact ih rows h core kinds' (by simpa using here)

theorem ids_candidate {ids : List ClauseId} {cs : List Candidate}
    (h : ids.mapM n.candidate = .ok cs) : cs.map (·.id) = ids := by
  have both := mapM_eq_ok h
  clear h
  induction both with
  | nil => rfl
  | cons made _ ih =>
      obtain ⟨d, -, made⟩ := bind_eq_ok.mp made
      obtain ⟨_, -, made⟩ := bind_eq_ok.mp made
      cases made
      rw [List.map_cons, ih]

/-- The candidates are the learnt clauses, in another order. -/
theorem Enlists.perm {cs : List Candidate} (x : n.Enlists cs) :
    (cs.map (·.id)).Perm (n.row true) := by
  obtain ⟨ds, listed, perm⟩ := x
  have ids := perm.map (·.id)
  rwa [ids_candidate listed] at ids

/-- The row is put into the order of the candidates before it is walked along. -/
theorem Enlists.step {cs : List Candidate} (x : n.Enlists cs) :
    Step n.view ⟨n, n.watchers, Function.update n.row true (cs.map (·.id))⟩ := by
  refine .reorder (v := n.view) fun learnt => ?_
  cases learnt with
  | true => exact x.perm
  | false => exact .refl _

/-- The clauses that stay are written back after the walk. -/
theorem pruned_chain {half : Nat} {bound : Float} {cs : List Candidate}
    {learnts : Array ClauseId} (core : n.Core) (listed : n.Enlists cs)
    (h : n.prune half bound #[] 0 cs = .ok (n', learnts)) :
    Chain n.view { n' with db := { n'.db with learnts } }.view := by
  obtain ⟨chain, row⟩ := prune_chain (Function.update n.row true (cs.map (·.id))) h core
    listed.learnt (by simp)
  rw [Function.update_idem] at chain
  have last := writeLearnts_step n' learnts
  rw [row] at last
  exact ((Relation.ReflTransGen.single listed.step).trans chain).tail last

/-- Giving learnt clauses up is a chain. -/
theorem reduceLearnts_chain {sort : List Candidate → List Candidate}
    (perm : ∀ cs, (sort cs).Perm cs) (core : n.Core) (h : n.reduceLearnts sort = .ok n') :
    Chain n.view n'.view := by
  obtain ⟨cs, listed, h⟩ := bind_eq_ok.mp h
  obtain ⟨⟨n₁, learnts⟩, pruned, h⟩ := bind_eq_ok.mp h
  obtain ⟨_, -, h⟩ := bind_eq_ok.mp h
  obtain ⟨_, -, h⟩ := bind_eq_ok.mp h
  cases h
  have first : Step n.view (n.log .reduceStart).view := log_step n .reduceStart
  have rest := pruned_chain (first.core core) (enlists_candidates perm listed) pruned
  exact ((Relation.ReflTransGen.single first).trans rest).tail (log_step _ _)

/-! ## Compaction -/

/-- A reason that is stored outlives the walk over the reasons of a collection. -/
theorem reasonOf_liveReasons {arena : Arena} {ls : List Lit} {t t' : Trail}
    {ids : List ClauseId} {v : Var} {r : Reason} (h : liveReasons arena ls t = .ok (t', ids))
    (live : ∀ id, r = .clause id → arena.contains id = true) (old : t.reasonOf v = .ok r) :
    t'.reasonOf v = .ok r := by
  induction ls generalizing t ids with
  | nil =>
      cases h
      exact old
  | cons l ls ih =>
      obtain ⟨s, reason, h⟩ := bind_eq_ok.mp h
      split at h
      next id =>
        split at h
        next =>
          obtain ⟨⟨t₁, ids₁⟩, rest, h⟩ := bind_eq_ok.mp h
          cases h
          exact ih rest old
        next gone =>
          obtain ⟨_, -, h⟩ := bind_eq_ok.mp h
          obtain ⟨_, -, h⟩ := bind_eq_ok.mp h
          obtain ⟨t₁, forgotten, h⟩ := bind_eq_ok.mp h
          refine ih h ?_
          rw [Trail.reasonOf_forgetReason forgotten, if_neg, old]
          rintro rfl
          cases old.symm.trans reason
          exact gone (live id rfl)
      next => exact ih h old

theorem contains_of_body? {a : Arena} (stored : a.body? id = some c) : a.contains id = true := by
  unfold Arena.body? at stored
  unfold Arena.contains
  cases found : a.find? id with
  | none => rw [found] at stored; cases stored
  | some s => rfl

/-- What compaction is made of. -/
theorem collect_eq_ok (h : n.collect = .ok n') : ∃ watched trail reasons arena,
    n.watchedOrder = .ok watched ∧
    liveReasons n.db.arena n.trail.lits.toList n.trail = .ok (trail, reasons) ∧
    n.db.arena.compact (watched ++ reasons ++ n.db.learnts.toList ++ n.db.problem.toList) =
      .ok arena ∧
    n' = { (n.log (.collected n.db.arena.size arena.size)).report
      (.collect (n.db.arena.size * Arena.unitSize) (arena.size * Arena.unitSize)) with
      trail, db := { n.db with arena } } := by
  obtain ⟨_, -, h⟩ := bind_eq_ok.mp h
  obtain ⟨watched, ordered, h⟩ := bind_eq_ok.mp h
  obtain ⟨⟨trail, reasons⟩, live, h⟩ := bind_eq_ok.mp h
  obtain ⟨arena, compacted, h⟩ := bind_eq_ok.mp h
  simp only at h
  split at h
  next =>
    cases h
    exact ⟨watched, trail, reasons, arena, ordered, live, compacted, rfl⟩
  next => cases h

/-- Compaction is a step. -/
theorem collect_step (size : n.watches.size = 2 * n.trail.numVars) (h : n.collect = .ok n') :
    Step n.view n'.view := by
  obtain ⟨watched, trail, reasons, arena, ordered, live, compacted, rfl⟩ := collect_eq_ok h
  obtain ⟨slots, body⟩ := Arena.body?_compact compacted
  obtain ⟨words, wasted⟩ := Arena.words_compact compacted
  refine .compact (v := n.view) ⟨.single (.compact compacted), forgets_liveReasons live,
    fun l _ r stored old => ?_, rfl, slots, fun {id c} here => ?_,
    fun {id c l w} stored inside same => ?_, fun _ => rfl, words, wasted⟩
  · refine reasonOf_liveReasons live (fun id named => ?_) old
    obtain ⟨c, here⟩ := stored id named
    exact contains_of_body? here
  · change arena.body? id = some c at here
    rw [body] at here
    split at here
    · exact here
    · cases here
  · subst same
    change arena.body? w.clause = some c
    rw [body, if_pos, stored.symm]
    · rfl
    · have listed := mem_watchedOrder size ordered (lists_iff_mem_watchers.mpr inside)
      simp [listed]

end Network

end Cdcl
