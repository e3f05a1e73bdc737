import Mathlib.Algebra.BigOperators.Group.Finset.Piecewise
import Cdcl.Proofs.Moving
import Cdcl.Proofs.Rehearsing
import Cdcl.Proofs.Success

/-!
# The watch lists

Whatever is called, each stored clause is named once in the rows, and it is watched by its
first two literals and by nothing else: `Network.WatchesExactly`.

* `count_watchedOrder` — how often a clause is met on the way through all lists;
* `failsOnly_detach` — a clause can be taken out of its lists;
* `watches_exactly` — the theorem about runs.
-/

namespace Cdcl

namespace Network

variable {n n' : Network} {id : ClauseId} {c : Clause} {l : Lit}

/-- The stored clauses, as the rows name them. -/
def ids (n : Network) : List ClauseId := n.db.problem.toList ++ n.db.learnts.toList

/-- How many watchers of a clause there are in the list of a literal. -/
def watcherCount (n : Network) (id : ClauseId) (l : Lit) : Nat :=
  (n.watchers l).countP (·.clause = id)

/-- The rows name each clause once, and each clause has one watcher in the lists of its
first two literals. -/
structure WatchesExactly (n : Network) : Prop where
  once : n.ids.Nodup
  stored : ∀ id ∈ n.ids, ∃ c, n.clause id = .ok c ∧ c.header.mark = 0 ∧ 2 ≤ c.lits.length ∧
    (c.lits.map Lit.var).Nodup
  first : ∀ {id c}, id ∈ n.ids → n.clause id = .ok c → n.watcherCount id (-c.first) = 1
  second : ∀ {id c}, id ∈ n.ids → n.clause id = .ok c → n.watcherCount id (-c.second) = 1
  only : ∀ {l w}, w ∈ n.watchers l → w.clause ∈ n.ids ∧
    ∃ c, n.clause w.clause = .ok c ∧ (l = -c.first ∨ l = -c.second)
  blocker : ∀ {l w c}, w ∈ n.watchers l → n.clause w.clause = .ok c →
    w.blocker ∈ c.lits ∨ n.trail.rootValue w.blocker = .ok .fails

theorem watcherCount_eq_count : n.watcherCount id l =
    ((n.watchers l).map Watcher.clause).count id := by
  rw [List.count, List.countP_map]
  exact List.countP_congr fun w _ => by simp

/-- The rows name the stored clauses. -/
theorem mem_ids (x : n.view.Indexed) : id ∈ n.ids ↔ ∃ c, n.body? id = some c := x.mem_rows

/-- A stored clause can be read, with its activity. -/
theorem exists_clause (stored : n.body? id = some c) : ∃ d, n.clause id = .ok d ∧ d.body = c := by
  unfold body? Arena.body? at stored
  unfold clause Arena.get
  cases found : n.db.arena.find? id with
  | none => rw [found] at stored; cases stored
  | some s =>
      rw [found] at stored
      exact ⟨s.clause, rfl, Option.some.inj stored⟩

/-- The rows name the clauses by their kinds. -/
theorem mem_row (x : n.view.Indexed) (learnt : Bool) :
    id ∈ n.row learnt ↔ ∃ c, n.clause id = .ok c ∧ c.learnt = learnt := by
  refine (x.listed learnt id).trans ⟨fun ⟨c, stored, kind⟩ => ?_, fun ⟨c, read, kind⟩ => ?_⟩
  · obtain ⟨d, read, rfl⟩ := exists_clause stored
    exact ⟨d, read, kind⟩
  · exact ⟨c.body, Arena.body?_of_get read, kind⟩

theorem mem_ids_iff (x : n.view.Indexed) : id ∈ n.ids ↔ ∃ c, n.clause id = .ok c := by
  refine (mem_ids x).trans ⟨fun ⟨c, stored⟩ => ?_, fun ⟨c, read⟩ => ?_⟩
  · obtain ⟨d, read, -⟩ := exists_clause stored
    exact ⟨d, read⟩
  · exact ⟨c.body, Arena.body?_of_get read⟩

/-- No clause is named by both rows. -/
theorem nodup_ids (x : n.view.Indexed) : n.ids.Nodup := x.nodup_rows

/-- Clauses are watched exactly in a network that is well-formed and indexed. -/
theorem WF.watchesExactly (w : n.WF n.Lists) (x : n.view.Indexed) : n.WatchesExactly where
  once := nodup_ids x
  stored id inside := by
    obtain ⟨c, stored⟩ := (mem_ids x).mp inside
    obtain ⟨d, read, rfl⟩ := exists_clause stored
    have once := w.distinct stored
    exact ⟨d, read, rfl, by simp [Clause.lits], once⟩
  first {id c} _ read := by
    have stored : n.body? id = some c.body := Arena.body?_of_get read
    refine watcherCount_eq_count.trans ((x.posted _ _).trans ?_)
    exact (share_of_body stored).trans (if_pos (.inl (Lit.neg_neg _)))
  second {id c} _ read := by
    have stored : n.body? id = some c.body := Arena.body?_of_get read
    refine watcherCount_eq_count.trans ((x.posted _ _).trans ?_)
    exact (share_of_body stored).trans (if_pos (.inr (Lit.neg_neg _)))
  only {l v} inside := by
    obtain ⟨c, stored, watching⟩ := x.watching inside
    obtain ⟨d, read, rfl⟩ := exists_clause stored
    refine ⟨(mem_ids x).mpr ⟨_, stored⟩, d, read, watching.imp (fun e => ?_) fun e => ?_⟩
    · rw [← Lit.neg_neg l, e]
      rfl
    · rw [← Lit.neg_neg l, e]
      rfl
  blocker {l v c} inside read :=
    (w.watched.blocker (lists_iff_mem_watchers.mpr inside) (Arena.body?_of_get read)).imp_right
      (Solver.rootValue_fails_iff w.trail).mpr

/-! ## All lists together -/

/-- Every literal of an existing variable has a list. -/
theorem exists_watches (size : n.watches.size = 2 * n.trail.numVars)
    (known : l.var.index < n.trail.numVars) :
    ∃ ws, n.watches.get l = .ok ws ∧ n.watchers l = ws.toList := by
  have inside : DenseKey.toIndex l < n.watches.size := by
    rw [size, Lit.toIndex_eq, Lit.code]
    cases l.sign <;> simp <;> omega
  obtain ⟨ws, read⟩ := DenseMap.exists_get.mpr inside
  refine ⟨ws, read, ?_⟩
  unfold watchers
  rw [read]

/-- Going through all lists works, and meets each clause as often as they name it. -/
theorem count_watchedOrder (size : n.watches.size = 2 * n.trail.numVars) :
    ∃ order, n.watchedOrder = .ok order ∧ ∀ id, order.count id =
      ∑ i ∈ Finset.range n.trail.numVars,
        (n.watcherCount id ⟨⟨i⟩, false⟩ + n.watcherCount id ⟨⟨i⟩, true⟩) := by
  have walk : ∀ is : List Nat, (∀ i ∈ is, i < n.trail.numVars) → ∃ lists,
      ((is.map Var.mk).mapM fun v => do
        let negative ← n.watches.get ⟨v, false⟩
        let positive ← n.watches.get ⟨v, true⟩
        return (negative ++ positive).toList.map (·.clause)) = Except.ok lists ∧
      ∀ id, lists.flatten.count id = (is.map fun i =>
        n.watcherCount id ⟨⟨i⟩, false⟩ + n.watcherCount id ⟨⟨i⟩, true⟩).sum := by
    intro is known
    induction is with
    | nil => exact ⟨[], rfl, fun _ => rfl⟩
    | cons i is ih =>
        obtain ⟨lists, made, counts⟩ := ih fun j hj => known j (List.mem_cons_of_mem i hj)
        have low := known i List.mem_cons_self
        obtain ⟨negative, readNegative, here⟩ := exists_watches (l := ⟨⟨i⟩, false⟩) size low
        obtain ⟨positive, readPositive, here'⟩ := exists_watches (l := ⟨⟨i⟩, true⟩) size low
        refine ⟨(negative ++ positive).toList.map (·.clause) :: lists, ?_, fun id => ?_⟩
        · rw [List.map_cons, List.mapM_cons, readNegative, readPositive, made]
          rfl
        · rw [List.flatten_cons, List.count_append, counts, List.map_cons, List.sum_cons,
            watcherCount_eq_count, watcherCount_eq_count, here, here', Array.toList_append,
            List.map_append, List.count_append]
  obtain ⟨lists, made, counts⟩ := walk (List.range n.trail.numVars) fun i => List.mem_range.mp
  refine ⟨lists.flatten, ?_, counts⟩
  unfold watchedOrder
  rw [made]
  rfl

/-- Of the two lists of a variable, a clause has as many watchers as it has watched literals
of that variable. -/
theorem share_both (distinct : (c.lits.map Lit.var).Nodup) (stored : n.body? id = some c)
    (i : Nat) : n.share id ⟨⟨i⟩, false⟩ + n.share id ⟨⟨i⟩, true⟩ =
      (if i = c.first.var.index then 1 else 0) + if i = c.second.var.index then 1 else 0 := by
  have apart : c.first.var ≠ c.second.var :=
    fun same => (List.nodup_cons.mp distinct).1 (same ▸ List.mem_cons_self)
  rw [share_of_body stored, share_of_body stored]
  obtain ⟨⟨⟨f⟩, a⟩, ⟨⟨g⟩, b⟩, rest, learnt, activity⟩ := c
  have apart : f ≠ g := fun same => apart (congrArg Var.mk same)
  by_cases hf : i = f <;> by_cases hg : i = g <;> cases a <;> cases b <;>
    simp_all [Neg.neg]

/-- Each stored clause is met twice on the way through all lists. -/
theorem sum_share (distinct : (c.lits.map Lit.var).Nodup) (stored : n.body? id = some c)
    (known : ∀ l ∈ c.lits, l.var.index < n.trail.numVars) :
    ∑ i ∈ Finset.range n.trail.numVars, (n.share id ⟨⟨i⟩, false⟩ + n.share id ⟨⟨i⟩, true⟩) =
      2 := by
  have low : c.first.var.index ∈ Finset.range n.trail.numVars :=
    Finset.mem_range.mpr (known c.first (by simp [Clause.lits]))
  have low' : c.second.var.index ∈ Finset.range n.trail.numVars :=
    Finset.mem_range.mpr (known c.second (by simp [Clause.lits]))
  rw [Finset.sum_congr rfl fun i _ => share_both distinct stored i, Finset.sum_add_distrib,
    Finset.sum_ite_eq', Finset.sum_ite_eq', if_pos low, if_pos low']

/-- The way through all lists meets each stored clause twice, and nothing else. -/
theorem exists_watchedOrder (w : n.WF n.Lists) (x : n.view.Indexed) (r : n.view.Ranged) :
    ∃ order, n.watchedOrder = .ok order ∧
      ∀ id, order.count id = if id ∈ n.ids then 2 else 0 := by
  obtain ⟨order, made, counts⟩ := count_watchedOrder w.watched.size
  refine ⟨order, made, fun id => ?_⟩
  have posted : ∀ l, n.watcherCount id l = n.share id l := fun l =>
    watcherCount_eq_count.trans (x.posted l id)
  rw [counts id, Finset.sum_congr rfl fun i _ => congrArg₂ (· + ·) (posted _) (posted _)]
  cases stored : n.body? id with
  | none =>
      have out : id ∉ n.ids := fun inside =>
        have ⟨_, stored'⟩ := (mem_ids x).mp inside
        Option.some_ne_none _ (stored'.symm.trans stored)
      rw [if_neg out]
      exact Finset.sum_eq_zero fun i _ => by
        rw [share_of_none stored, share_of_none stored, Nat.add_zero]
  | some c =>
      rw [if_pos ((mem_ids x).mpr ⟨c, stored⟩)]
      exact sum_share (w.distinct stored) stored (r.clauses stored)

/-! ## Taking clauses out -/

variable {w : Watcher} {rows : Bool → List ClauseId} {e : Fault → Prop}

/-- A watcher that is in the list is found. -/
theorem failsOnly_unwatch (inside : w ∈ n.watchers l) (named : w.clause = id) :
    FailsOnly e (n.unwatch l id) := by
  cases read : n.watches.get l with
  | error => rw [watchers, read] at inside; cases inside
  | ok list =>
      rw [watchers, read] at inside
      obtain ⟨i, found⟩ : ∃ i, list.findIdx? (·.clause = id) = some i :=
        Option.isSome_iff_exists.mp <| Array.findIdx?_isSome.trans <|
          Array.any_eq_true'.mpr ⟨w, Array.mem_toList_iff.mp inside, decide_eq_true named⟩
      refine FailsOnly.bind (.of_eq read) fun list' read' => ?_
      cases read.symm.trans read'
      rw [found]
      exact .bind (DenseMap.failsOnly_modify (DenseMap.toIndex_lt read)) fun _ _ => .ok _

/-- The tallies count every stored clause. -/
theorem counted_tally (x : View.Indexed ⟨n, n.watchers, rows⟩) (stored : n.body? id = some c) :
    1 ≤ (n.tally c.learnt).clauses ∧ c.size ≤ (n.tally c.learnt).literals := by
  have clauses : Clause.countIf c.learnt c ≤ (n.tally c.learnt).clauses := by
    rw [show (n.tally c.learnt).clauses = _ from x.clauses c.learnt]
    have counted : Arena.weight (Clause.countIf c.learnt) (n.body? id) ≤ _ :=
      Arena.weight_le_total
    rwa [stored] at counted
  have literals : Clause.sizeIf c.learnt c ≤ (n.tally c.learnt).literals := by
    rw [show (n.tally c.learnt).literals = _ from x.literals c.learnt]
    have counted : Arena.weight (Clause.sizeIf c.learnt) (n.body? id) ≤ _ :=
      Arena.weight_le_total
    rwa [stored] at counted
  rw [Clause.countIf, if_pos rfl] at clauses
  rw [Clause.sizeIf, if_pos rfl] at literals
  exact ⟨clauses, literals⟩

theorem failsOnly_drop (x : View.Indexed ⟨n, n.watchers, rows⟩)
    (stored : n.body? id = some c) : FailsOnly e ((n.tally c.learnt).drop c.size) := by
  obtain ⟨clauses, literals⟩ := counted_tally x stored
  exact .bind (.checkedSub clauses) fun _ _ => .bind (.checkedSub literals) fun _ _ => .ok _

theorem failsOnly_retally {learnt : Bool} {f : Tally → Except Fault Tally}
    (h : FailsOnly e (f (n.tally learnt))) : FailsOnly e (n.retally learnt f) := by
  unfold retally
  cases learnt with
  | false => exact .bind h fun _ _ => .ok _
  | true => exact .bind h fun _ _ => .ok _

/-- A stored clause can be detached. -/
theorem failsOnly_detach (core : n.Core) (x : View.Indexed ⟨n, n.watchers, rows⟩)
    (stored : n.body? id = some c) : FailsOnly e (n.detach id) := by
  obtain ⟨d, read, rfl⟩ := exists_clause stored
  have apart : -d.second ≠ -d.first := fun same =>
    Clause.first_ne_second (core.distinct stored) (Lit.neg_inj.mp same).symm
  obtain ⟨v, inside, named⟩ := x.exists_watcher (l := -d.first) stored
    (.inl (Lit.neg_neg _))
  obtain ⟨v', inside', named'⟩ := x.exists_watcher (l := -d.second) stored
    (.inr (Lit.neg_neg _))
  refine .bind (.of_eq read) fun d' read' => ?_
  cases read.symm.trans read'
  refine .bind (failsOnly_unwatch inside named) fun n₁ first => ?_
  have left : v' ∈ n₁.watchers (-d.second) := by
    rw [watchers_unwatch first, if_neg apart]
    exact inside'
  refine .bind (failsOnly_unwatch left named') fun n₂ second => failsOnly_retally ?_
  rw [tally, (db_unwatch second).trans (db_unwatch first)]
  exact failsOnly_drop (c := d.body) x stored

/-! ## Propagation -/

/-- A propagation loses no watcher and doubles none. -/
theorem propagate_order {conflict : Option ClauseId} {count : Nat} (w : n.WF n.Lists)
    (s : n.view.Sturdy) (h : n.propagate = .ok (n', conflict, count)) :
    n'.WatchesExactly ∧ ∃ order order', n.watchedOrder = .ok order ∧
      n'.watchedOrder = .ok order' ∧ order'.Perm order := by
  obtain ⟨chain, row, -⟩ := propagate_chain w.core h
  have s' : n'.view.Sturdy := View.Chain.sturdy chain w.core s
  have w' : n'.WF n'.Lists := (propagate_fits (g := ⟨[], [], False, False, fun _ => True⟩) h
    ⟨w, False.elim, False.elim, False.elim, False.elim⟩).1.fits.wf
  have same : n'.ids = n.ids := congrArg₂ (· ++ ·) (congrFun row false) (congrFun row true)
  obtain ⟨order, made, counts⟩ := exists_watchedOrder w s.indexed s.ranged
  obtain ⟨order', made', counts'⟩ := exists_watchedOrder w' s'.indexed s'.ranged
  refine ⟨w'.watchesExactly s'.indexed, order, order', made, made',
    List.perm_iff_count.mpr fun id => ?_⟩
  rw [counts', counts, same]

end Network

/-! ## Runs -/

namespace Solver

variable {options : Options} {allowed : Solver → Call → Prop} {calls : List Call} {s : Solver}

/-- Whatever is called, the clauses are watched exactly as they should be; a propagation
rearranges the watchers, and a clause that is detached had all its watchers. -/
theorem Reaches.watches_exactly (run : Reaches options allowed calls s) :
    s.net.WatchesExactly ∧
      (∀ {n' conflict count}, s.net.propagate = .ok (n', conflict, count) →
        n'.WatchesExactly ∧ ∃ order order', s.net.watchedOrder = .ok order ∧
          n'.watchedOrder = .ok order' ∧ order'.Perm order) ∧
      ∀ id ∈ s.net.ids, ∃ n', s.net.detach id = .ok n' ∧
        ∀ l, ∀ w ∈ n'.watchers l, w.clause ≠ id := by
  have w := run.standing.inv.net.wf
  have sturdy := run.sane.sturdy
  refine ⟨w.watchesExactly sturdy.indexed, Network.propagate_order w sturdy,
    fun id inside => ?_⟩
  obtain ⟨c, stored⟩ := (Network.mem_ids sturdy.indexed).mp inside
  obtain ⟨n', detached⟩ := (Network.failsOnly_detach w.core sturdy.indexed stored).exists_ok
  refine ⟨n', detached, fun l v left named => ?_⟩
  have apart := Clause.first_ne_second (w.distinct stored)
  have gone := sturdy.indexed.count_unpost stored l id
  rw [if_pos rfl, List.count_eq_zero] at gone
  rw [(Network.unposted_detach stored apart detached).1] at left
  exact gone (List.mem_map.mpr ⟨v, left, named⟩)

/-- Two clauses, of which one implies a literal after a decision. -/
def twoClauses : List Call :=
  [.newVar {}, .newVar {}, .newVar {}, .addClause [⟨⟨0⟩, false⟩, ⟨⟨1⟩, true⟩],
    .addClause [⟨⟨1⟩, false⟩, ⟨⟨2⟩, true⟩, ⟨⟨0⟩, false⟩], .decide ⟨⟨0⟩, true⟩, .propagate]

/-- The lists are exact after a decision has been propagated through both clauses. -/
theorem two_clauses_watched : ∃ s, Reaches {} (fun _ _ => True) twoClauses s ∧
    s.net.ids = [⟨0⟩, ⟨1⟩] ∧ s.level = 1 ∧ s.net.WatchesExactly := by
  have found : ∃ s ∈ (create {} false none).toOption,
      ∃ s' ∈ s.playAll (fun _ _ => True) twoClauses,
        s'.net.ids = [⟨0⟩, ⟨1⟩] ∧ s'.level = 1 := by
    decide +kernel
  obtain ⟨s, run, ids, level⟩ := exists_played found
  exact ⟨s, run, ids, level, run.watches_exactly.1⟩

end Solver

end Cdcl
