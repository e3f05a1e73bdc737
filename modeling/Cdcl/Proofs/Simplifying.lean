import Cdcl.Solver.Reduction
import Cdcl.Solver.Simplification
import Cdcl.Proofs.Faults
import Cdcl.Proofs.Reducing

/-!
# Upkeep of the clauses

The operations that give clauses up: counting the uses of learnt clauses, which decides
about them, giving up those of little use, simplification at the root level, and
compaction of the arena.

* `alike_bumpClause` — activities mean nothing;
* `reduces_reduceLearnts`, `reduces_sweepAll`, `reduces_collect` — the rest reduces the
  network.
-/

namespace Cdcl

/-- A clause with another activity is the same clause. -/
theorem Arena.body?_activity {a a' : Arena} {id : ClauseId} {c : Clause} {x : Float32}
    (read : a.get id = .ok c) (h : a.set id { c with activity := x } = .ok a') :
    a'.slots.size = a.slots.size ∧ ∀ j, a'.body? j = a.body? j := by
  refine ⟨size_set h, fun j => ?_⟩
  rw [body?_set h]
  split
  next same =>
    subst same
    exact (body?_of_get read).symm
  next => rfl

namespace Network

variable {n n' : Network} {id : ClauseId}

/-- Scaling activities leaves the bodies of clauses alone. -/
theorem body?_scaleActivities {a a' : Arena} {ids : List ClauseId}
    (h : scaleActivities a ids = .ok a') :
    a'.slots.size = a.slots.size ∧ ∀ j, a'.body? j = a.body? j := by
  induction ids generalizing a with
  | nil =>
      cases h
      exact ⟨rfl, fun _ => rfl⟩
  | cons id ids ih =>
      obtain ⟨c, read, h⟩ := bind_eq_ok.mp h
      obtain ⟨_, -, h⟩ := bind_eq_ok.mp h
      obtain ⟨a₁, written, h⟩ := bind_eq_ok.mp h
      obtain ⟨size, body⟩ := Arena.body?_activity read written
      obtain ⟨size', body'⟩ := ih h
      exact ⟨size'.trans size, fun j => (body' j).trans (body j)⟩

/-- Counting the use of a clause is bookkeeping. -/
theorem alike_bumpClause (h : n.bumpClause id = .ok n') : n.Alike n' := by
  obtain ⟨c, read, h⟩ := bind_eq_ok.mp h
  obtain ⟨_, -, h⟩ := bind_eq_ok.mp h
  obtain ⟨arena, written, h⟩ := bind_eq_ok.mp h
  obtain ⟨size, body⟩ := Arena.body?_activity read written
  split at h
  · obtain ⟨arena', scaled, h⟩ := bind_eq_ok.mp h
    cases h
    obtain ⟨size', body'⟩ := body?_scaleActivities scaled
    exact ⟨rfl, rfl, fun j => (body' j).trans (body j), size'.trans size, fun h => h⟩
  · cases h
    exact ⟨rfl, rfl, body, size, fun h => h⟩

/-! ## Simplification -/

/-- What is left are the literals that are not false; the others are false for good. -/
theorem cutFalse_filter {t : Trail} (w : t.WF) {ls ls' : List Lit}
    (h : cutFalse t ls = .ok ls') :
    ls'.Perm (ls.filter fun l => t.litValue l ≠ .ok .fails) ∧
      ∀ l ∈ ls, t.litValue l = .ok .fails → -l ∈ t.upTo 0 := by
  induction size : ls.length using Nat.strongRecOn generalizing ls ls' with
  | ind k ih =>
    cases ls with
    | nil =>
        unfold cutFalse at h
        cases h
        exact ⟨.refl _, by simp⟩
    | cons l ls =>
        unfold cutFalse at h
        obtain ⟨x, read, h⟩ := bind_eq_ok.mp h
        split at h
        next same =>
          subst same
          obtain ⟨level, levelOf, h⟩ := bind_eq_ok.mp h
          obtain ⟨_, zero, h⟩ := bind_eq_ok.mp h
          have root : level = 0 := by simpa using ensure_eq_ok.mp zero
          subst root
          have fact : -l ∈ t.upTo 0 :=
            (w.mem_upTo_iff (w.fails_iff.mp read) levelOf).mpr (Nat.le_refl 0)
          rw [List.filter_cons_of_neg (by simp [read])]
          split at h
          next last ends =>
            obtain ⟨init, rfl⟩ := List.getLast?_eq_some_iff.mp ends
            rw [List.dropLast_concat] at h
            obtain ⟨perm, facts⟩ := ih _ (by simp [← size]) h rfl
            have turned : (last :: init).Perm (init ++ [last]) :=
              (List.perm_append_singleton last init).symm
            refine ⟨perm.trans (turned.filter _), fun m hm false_ => ?_⟩
            rcases List.mem_cons.mp hm with rfl | hm
            · exact fact
            · exact facts m (turned.mem_iff.mpr hm) false_
          next empty =>
            cases h
            have none : ls = [] := List.getLast?_eq_none_iff.mp empty
            subst none
            exact ⟨.refl _, by simpa using fun _ => fact⟩
        next other =>
          obtain ⟨ls₁, rest, h⟩ := bind_eq_ok.mp h
          cases h
          obtain ⟨perm, facts⟩ := ih _ (by simp [← size]) rest rfl
          rw [List.filter_cons_of_pos (by simp [read, other])]
          refine ⟨perm.cons l, fun m hm false_ => ?_⟩
          rcases List.mem_cons.mp hm with rfl | hm
          · exact absurd (Except.ok.inj (read.symm.trans false_)) other
          · exact facts m hm false_

/-- What is cut off are false literals, and the others are all there. -/
theorem cutFalse_perm {t : Trail} (w : t.WF) {ls ls' : List Lit}
    (h : cutFalse t ls = .ok ls') :
    ∃ cut, (ls' ++ cut).Perm ls ∧ ∀ l ∈ cut, -l ∈ t.upTo 0 := by
  obtain ⟨left, facts⟩ := cutFalse_filter w h
  refine ⟨_, (left.append_right _).trans (List.filter_append_perm _ ls), fun l inside => ?_⟩
  obtain ⟨inside, false_⟩ := List.mem_filter.mp inside
  exact facts l inside (by simpa using false_)

/-- Cutting the false literals behind the watched ones trims the clause. -/
theorem trimmed_cutFalse (w : n.trail.WF) {c : Clause} {rest : List Lit}
    (h : cutFalse n.trail c.rest = .ok rest) :
    Trimmed (n.trail.upTo 0) c { c with rest } ∧ rest.length ≤ c.rest.length := by
  obtain ⟨cut, perm, facts⟩ := cutFalse_perm w h
  have whole : (c.first :: c.second :: (rest ++ cut)).Perm c.lits := (perm.cons _).cons _
  refine ⟨⟨rfl, rfl, rfl, fun l hl => ?_, fun l hl => ?_, fun once => ?_⟩, ?_⟩
  · apply whole.mem_iff.mp
    rw [← List.cons_append, ← List.cons_append]
    exact List.mem_append_left cut hl
  · have inside := whole.mem_iff.mpr hl
    rw [← List.cons_append, ← List.cons_append] at inside
    exact (List.mem_append.mp inside).imp_right (facts l)
  · have all : ((c.first :: c.second :: (rest ++ cut)).map Lit.var).Nodup :=
      ((whole.map Lit.var).nodup_iff).mpr once
    rw [← List.cons_append, ← List.cons_append, List.map_append] at all
    exact (List.nodup_append.mp all).1
  · have length := perm.length_eq
    rw [List.length_append] at length
    omega

/-- Trimming a clause gives literals up that are false for good. -/
theorem reduces_trimClause (w : n.trail.WF) (root : ∀ {i l r}, ¬n.Assigned i l r)
    (h : n.trimClause id = .ok n') : n.Reduces n' := by
  obtain ⟨c, rest, arena, read, cut, shrunk, h⟩ := trimClause_eq_ok h
  have stored : n.body? id = some c.body := Arena.body?_of_get read
  have trimmed := (trimmed_cutFalse (c := c.body) w cut).1
  exact Reduces.trans (reduces_shrink stored root trimmed shrunk) (alike_retally h).reduces

/-- If a true literal is found, there is one. -/
theorem anyHolds_iff {t : Trail} {ls : List Lit} (h : anyHolds t ls = .ok true) :
    ∃ l ∈ ls, t.litValue l = .ok .holds := by
  induction ls with
  | nil => cases h
  | cons l ls ih =>
      obtain ⟨x, read, h⟩ := bind_eq_ok.mp h
      split at h
      next same => exact ⟨l, List.mem_cons_self, same ▸ read⟩
      next =>
        obtain ⟨m, hm, holds⟩ := ih h
        exact ⟨m, List.mem_cons_of_mem l hm, holds⟩

/-- At the root level nothing is assigned above the root. -/
theorem not_assigned_of_root (root : n.trail.level = 0) {i : Nat} {l : Lit} {r : Reason} :
    ¬n.Assigned i l r := by
  intro given
  rcases given with ⟨here, above, -⟩
  have inside := (Array.getElem?_eq_some_iff.mp here).1
  rw [Trail.cut_of_le (by omega)] at above
  omega

/-- By induction along the row, clauses are removed or trimmed. -/
theorem reduces_sweep {kept kept' : Array ClauseId} {ids : List ClauseId}
    (w : n.WF n.Lists) (root : n.trail.level = 0)
    (h : n.sweep kept ids = .ok (n', kept')) : n.Reduces n' := by
  induction ids generalizing n kept with
  | nil =>
      cases h
      exact .refl _
  | cons id ids ih =>
      obtain ⟨c, read, h⟩ := bind_eq_ok.mp h
      obtain ⟨satisfied, tested, h⟩ := bind_eq_ok.mp h
      have later : ∀ {n₁ : Network} {kept₁ : Array ClauseId}, n.Reduces n₁ →
          n₁.sweep kept₁ ids = .ok (n', kept') → n.Reduces n' := by
        intro n₁ kept₁ r h
        have root₁ : n₁.trail.level = 0 := r.trail.level.trans root
        exact r.trans (ih (r.wf w) root₁ h)
      split at h
      next yes =>
        obtain ⟨n₁, removed, h⟩ := bind_eq_ok.mp h
        have a : n.Alike (n.log (.removeSatisfied c.lits)) := alike_log rfl
        have stored : (n.log (.removeSatisfied c.lits)).body? id = some c.body :=
          Arena.body?_of_get read
        rw [yes] at tested
        refine later (a.reduces.trans (reduces_removeClause stored ?_ ?_ removed)) h
        · intro i l at_
          exact not_assigned_of_root root ⟨at_.here, at_.above, at_.origin⟩
        · intro _
          obtain ⟨l, hl, holds⟩ := anyHolds_iff tested
          refine ⟨l, hl, ?_⟩
          have true_ := w.trail.holds_iff.mp holds
          change l ∈ n.trail.upTo 0
          rw [Trail.upTo_of_le (by omega)]
          exact Array.mem_toList_iff.mpr true_
      next =>
        obtain ⟨n₁, trimmed, h⟩ := bind_eq_ok.mp h
        exact later (reduces_trimClause w.trail (not_assigned_of_root root) trimmed) h

/-- Both rows may be swept. -/
theorem reduces_sweepAll {both : Bool} (w : n.WF n.Lists) (root : n.trail.level = 0)
    (h : n.sweepAll both = .ok n') : n.Reduces n' := by
  obtain ⟨n₁, first, h⟩ := bind_eq_ok.mp h
  obtain ⟨⟨n₂, learnts⟩, swept, first⟩ := bind_eq_ok.mp first
  cases first
  have r := reduces_sweep w root swept
  have a : n₂.Alike { n₂ with db := { n₂.db with learnts } } :=
    ⟨rfl, rfl, fun _ => rfl, rfl, fun h => h⟩
  have r₁ := r.trans a.reduces
  split at h
  · obtain ⟨⟨n₃, problem⟩, swept', h⟩ := bind_eq_ok.mp h
    cases h
    have r₂ := r₁.trans (reduces_sweep (r₁.wf w) (r₁.trail.level.trans root) swept')
    have a₂ : n₃.Alike { n₃ with db := { n₃.db with problem } } :=
      ⟨rfl, rfl, fun _ => rfl, rfl, fun h => h⟩
    exact r₂.trans a₂.reduces
  · cases h
    exact r₁

/-! ## Learnt clauses of little use -/

/-- A clause that is not locked is the reason of nothing. -/
theorem not_assigned_of_unlocked (w : n.WF n.Lists) (h : n.locked id = .ok false) {i : Nat}
    {l : Lit} : ¬n.Assigned i l (.clause id) := by
  intro at_
  obtain ⟨ps, ⟨c, stored, first, -⟩, -⟩ := w.reasons at_ (by simp)
  obtain ⟨d, read, h⟩ := bind_eq_ok.mp h
  have same : d.body = c := Option.some.inj ((Arena.body?_of_get read).symm.trans stored)
  have firstEq : d.first = l := (congrArg Clause.first same).trans first
  obtain ⟨x, value, h⟩ := bind_eq_ok.mp h
  have holds := w.trail.holds_iff.mpr (Array.mem_of_getElem? at_.here)
  rw [firstEq, holds] at value
  cases value
  rw [if_neg (by simp)] at h
  obtain ⟨r, origin, h⟩ := bind_eq_ok.mp h
  rw [firstEq, at_.origin] at origin
  cases origin
  simp [Pure.pure, Except.pure] at h

/-- By induction along the candidates, learnt clauses are removed that are no reasons. -/
theorem reduces_prune {half i : Nat} {bound : Float} {kept kept' : Array ClauseId}
    {cs : List Candidate} (w : n.WF n.Lists)
    (learnt : ∀ c ∈ cs, ∀ b, n.body? c.id = some b → b.learnt = true)
    (h : n.prune half bound kept i cs = .ok (n', kept')) : n.Reduces n' := by
  induction cs generalizing n kept i with
  | nil =>
      cases h
      exact .refl _
  | cons c cs ih =>
      have learnt' : ∀ d ∈ cs, ∀ b, n.body? d.id = some b → b.learnt = true :=
        fun d hd => learnt d (List.mem_cons_of_mem c hd)
      obtain ⟨locked, tested, h⟩ := bind_eq_ok.mp h
      simp only at h
      split at h
      next drop =>
        obtain ⟨n₁, removed, h⟩ := bind_eq_ok.mp h
        have idle : locked = false := by
          simp only [Bool.and_eq_true, Bool.not_eq_true'] at drop
          exact drop.1.2
        subst idle
        obtain ⟨d, read, -⟩ := bind_eq_ok.mp tested
        have stored : n.body? c.id = some d.body := Arena.body?_of_get read
        have r : n.Reduces n₁ := by
          refine reduces_removeClause stored (not_assigned_of_unlocked w tested) ?_ removed
          intro problem
          have yes := learnt c List.mem_cons_self _ stored
          rw [problem] at yes
          cases yes
        refine r.trans (ih (r.wf w) (fun d hd b here => ?_) h)
        obtain ⟨b₀, stored₀, trimmed⟩ := r.kept here
        rw [trimmed.learnt]
        exact learnt' d hd b₀ stored₀
      next => exact ih w learnt' h

/-- The candidates are the learnt clauses, in some order. -/
def Enlists (n : Network) (cs : List Candidate) : Prop :=
  ∃ ds, n.db.learnts.toList.mapM n.candidate = .ok ds ∧ cs.Perm ds

/-- Whatever the sort makes of them, the candidates are the learnt clauses. -/
theorem enlists_candidates {sort : List Candidate → List Candidate} {cs : List Candidate}
    (perm : ∀ cs, (sort cs).Perm cs) (h : n.candidates sort = .ok cs) : n.Enlists cs := by
  obtain ⟨ds, listed, h⟩ := bind_eq_ok.mp h
  split at h
  · cases h
  · cases h
    exact ⟨ds, listed, perm ds⟩

theorem Enlists.candidate {cs : List Candidate} {c : Candidate} (x : n.Enlists cs)
    (inside : c ∈ cs) : n.candidate c.id = .ok c := by
  obtain ⟨ds, listed, perm⟩ := x
  obtain ⟨id, -, made⟩ := mapM_mem_right listed (perm.mem_iff.mp inside)
  have given := made
  obtain ⟨d, read, made⟩ := bind_eq_ok.mp made
  obtain ⟨_, learnt, made⟩ := bind_eq_ok.mp made
  cases made
  exact given

/-- A candidate is a learnt clause. -/
theorem Enlists.learnt {cs : List Candidate} (x : n.Enlists cs) :
    ∀ c ∈ cs, ∀ b, n.body? c.id = some b → b.learnt = true := by
  intro c hc b stored
  obtain ⟨d, read, made⟩ := bind_eq_ok.mp (x.candidate hc)
  obtain ⟨_, learnt, -⟩ := bind_eq_ok.mp made
  have here : n.body? c.id = some d.body := Arena.body?_of_get read
  cases stored.symm.trans here
  exact ensure_eq_ok.mp learnt

/-- Learnt clauses are given up, in whatever order they are taken. -/
theorem reduces_reduceLearnts {sort : List Candidate → List Candidate}
    (perm : ∀ cs, (sort cs).Perm cs) (w : n.WF n.Lists) (h : n.reduceLearnts sort = .ok n') :
    n.Reduces n' := by
  obtain ⟨cs, listed, h⟩ := bind_eq_ok.mp h
  obtain ⟨⟨n₁, learnts⟩, pruned, h⟩ := bind_eq_ok.mp h
  obtain ⟨_, -, h⟩ := bind_eq_ok.mp h
  obtain ⟨_, -, h⟩ := bind_eq_ok.mp h
  cases h
  have a : n.Alike (n.log .reduceStart) := alike_log rfl
  have w' := a.wf w
  rw [← a.lists_eq] at w'
  have r := reduces_prune w' (enlists_candidates perm listed).learnt pruned
  have b : n₁.Alike { n₁ with db := { n₁.db with learnts } } :=
    ⟨rfl, rfl, fun _ => rfl, rfl, fun h => h⟩
  exact ((a.reduces.trans r).trans b.reduces).trans (alike_log rfl).reduces

/-! ## Compaction -/

/-- A collection may forget reasons whose clauses are gone. -/
theorem forgets_liveReasons {arena : Arena} {ls : List Lit} {t t' : Trail}
    {ids : List ClauseId} (h : liveReasons arena ls t = .ok (t', ids)) : t.Forgets t' := by
  induction ls generalizing t ids with
  | nil =>
      cases h
      exact .refl _
  | cons l ls ih =>
      obtain ⟨r, -, h⟩ := bind_eq_ok.mp h
      split at h
      · split at h
        · obtain ⟨⟨t₁, ids₁⟩, rest, h⟩ := bind_eq_ok.mp h
          cases h
          exact ih rest
        · obtain ⟨_, -, h⟩ := bind_eq_ok.mp h
          obtain ⟨_, -, h⟩ := bind_eq_ok.mp h
          obtain ⟨t₁, forgotten, h⟩ := bind_eq_ok.mp h
          exact (Trail.forgets_forgetReason forgotten).trans (ih h)
      · exact ih h

/-- Every clause that has a watcher is listed. -/
theorem mem_watchedOrder {ids : List ClauseId} (size : n.watches.size = 2 * n.trail.numVars)
    (h : n.watchedOrder = .ok ids) {l : Lit} {v : Watcher} (listed : n.Lists l v) :
    v.clause ∈ ids := by
  obtain ⟨lists, made, h⟩ := bind_eq_ok.mp h
  cases h
  obtain ⟨ws, read, inside⟩ := listed
  have bound : l.var.index < n.trail.numVars := by
    have key := DenseMap.toIndex_lt read
    rw [size, Lit.toIndex_eq, Lit.code] at key
    omega
  have var : l.var ∈ (List.range n.trail.numVars).map Var.mk :=
    List.mem_map.mpr ⟨l.var.index, List.mem_range.mpr bound, rfl⟩
  obtain ⟨ids, listed, built⟩ := mapM_mem_left made var
  obtain ⟨negative, readNegative, built⟩ := bind_eq_ok.mp built
  obtain ⟨positive, readPositive, built⟩ := bind_eq_ok.mp built
  cases built
  refine List.mem_flatten.mpr ⟨_, listed, List.mem_map.mpr ⟨v, ?_, rfl⟩⟩
  rw [Array.mem_toList_iff, Array.mem_append]
  obtain ⟨u, s⟩ := l
  cases s with
  | false =>
      cases read.symm.trans readNegative
      exact .inl inside
  | true =>
      cases read.symm.trans readPositive
      exact .inr inside

/-- A collection loses no clause that is watched. -/
theorem reduces_collect (w : n.WF n.Lists) (h : n.collect = .ok n') : n.Reduces n' := by
  obtain ⟨_, -, h⟩ := bind_eq_ok.mp h
  obtain ⟨watched, ordered, h⟩ := bind_eq_ok.mp h
  obtain ⟨⟨trail, reasons⟩, live, h⟩ := bind_eq_ok.mp h
  obtain ⟨arena, compacted, h⟩ := bind_eq_ok.mp h
  obtain ⟨slots, body⟩ := Arena.body?_compact compacted
  have forgets : n.trail.Forgets trail := forgets_liveReasons live
  -- a live clause has a watcher, so it is moved
  have same : ∀ j, arena.body? j = n.body? j := by
    intro j
    rw [body]
    split
    next => rfl
    next absent =>
      cases stored : n.body? j with
      | none => rfl
      | some c =>
          obtain ⟨b, listed⟩ := w.watched.first stored
          have inside := mem_watchedOrder w.watched.size ordered listed
          exact absurd (by simp [inside]) absent
  simp only at h
  split at h
  next =>
    cases h
    have told := (alike_log (n := n) (m := .collected n.db.arena.size arena.size) rfl).trans
      (alike_report _ (.collect (n.db.arena.size * Arena.unitSize)
        (arena.size * Arena.unitSize)))
    refine ⟨forgets, rfl, slots, told.lessons, fun listed => listed, fun {j b'} here => ?_,
      fun _ listed => listed, fun {i l r ps} _ behind => ?_, fun {j b} here _ => ?_⟩
    · exact ⟨b', (same j).symm.trans here, .refl _⟩
    · cases r with
      | clause j =>
          obtain ⟨c, stored, rest⟩ := behind
          exact ⟨c, (same j).trans stored, rest⟩
      | _ => exact behind
    · exact .inr ⟨b, (same j).trans here⟩
  next => cases h

end Network

end Cdcl
