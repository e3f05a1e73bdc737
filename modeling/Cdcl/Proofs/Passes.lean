import Cdcl.Proofs.Grounding

/-!
# Propagation and storing as chains

What the operations of a network that assign literals and store clauses are made of.

* `visit_chain`, `scan_chain` — a visit exchanges literals, and a walk along a list is a
  chain of visits, with the list on the way;
* `propagate_chain` — a propagation is a chain;
* `addClause_step` — storing a clause is a step.
-/

namespace Cdcl

/-- The watchers that a visit leaves in the list. -/
def Visit.stays : Visit → List Watcher
  | .keep w => [w]
  | .moved => []
  | .conflict w => [w]

namespace Network

variable {n n' : Network} {p : Lit} {w : Watcher} {lists : Lit → List Watcher}

open View (Chain Step)

/-! ## Bookkeeping -/

theorem watchers_congr (same : n'.watches = n.watches) : n'.watchers = n.watchers := by
  funext l
  unfold watchers
  rw [same]

theorem view_congr (watches : n'.watches = n.watches) (row : n'.row = n.row) :
    (⟨n', n.watchers, n.row⟩ : View) = n'.view := by
  rw [view, watchers_congr watches, row]

/-- Nothing that matters differs, and the rows are the same. -/
structure Idles (n n' : Network) : Prop extends n.Alike n', n.SameCounts n' where
  row : n'.row = n.row

/-- Bookkeeping that leaves the counters alone. -/
theorem Alike.steady (a : n.Alike n') (counts : n.SameCounts n') : n.Steady n' where
  values := by rw [a.trail]
  origins := by rw [a.trail]
  lits := by rw [a.trail]
  marks := by rw [a.trail]
  head := by rw [a.trail]; exact id
  watches := by rw [a.watches]
  body := a.body
  slots := a.slots
  counts := counts

theorem Idles.step (i : n.Idles n') : n.view.Step n'.view := by
  rw [← view_congr i.watches i.row]
  exact .steady (i.toAlike.steady i.toSameCounts)

theorem idles_report (n : Network) (e : Event) : n.Idles (n.report e) :=
  ⟨alike_report n e, .of_eq rfl, rfl⟩

/-- A message is no matter to the view, whatever it says. -/
theorem log_step (n : Network) (m : Message) : n.view.Step (n.log m).view :=
  .steady ⟨rfl, rfl, rfl, rfl, id, rfl, fun _ => rfl, rfl, .of_eq rfl⟩

/-- Replacing the contents of a clause leaves the counters and the places alone. -/
theorem sameCounts_set {id : ClauseId} {c d : Clause} {a : Arena}
    (read : n.clause id = .ok c) (written : n.db.arena.set id d = .ok a)
    (size : d.size = c.size) (learnt : d.learnt = c.learnt) :
    n.SameCounts { n with db := { n.db with arena := a } } :=
  have ⟨words, wasted⟩ := Arena.words_set written
  ⟨.single (.write read written size learnt), fun _ => rfl, words, wasted,
    Arena.place?_set written⟩

/-- By induction along the list, scaling leaves the counters and the places alone. -/
theorem sameCounts_scaleActivities {a a' : Arena} {ids : List ClauseId}
    (h : scaleActivities a ids = .ok a') : a.Edits a' ∧
    a'.size = a.size ∧ a'.wasted = a.wasted ∧ ∀ id, a'.place? id = a.place? id := by
  induction ids generalizing a with
  | nil => cases h; exact ⟨.refl, rfl, rfl, fun _ => rfl⟩
  | cons id ids ih =>
      obtain ⟨c, read, h⟩ := bind_eq_ok.mp h
      obtain ⟨_, -, h⟩ := bind_eq_ok.mp h
      obtain ⟨a₁, written, h⟩ := bind_eq_ok.mp h
      obtain ⟨edits, size, wasted, places⟩ := ih h
      obtain ⟨size', wasted'⟩ := Arena.words_set written
      have places' := Arena.place?_set written
      exact ⟨.head (.write read written rfl rfl) edits, size.trans size', wasted.trans wasted',
        fun j => (places j).trans (places' j)⟩

/-- Counting the use of a clause is bookkeeping. -/
theorem idles_bumpClause {id : ClauseId} (h : n.bumpClause id = .ok n') : n.Idles n' := by
  refine ⟨alike_bumpClause h, ?_, ?_⟩
  all_goals
    obtain ⟨c, read, h⟩ := bind_eq_ok.mp h
    obtain ⟨_, -, h⟩ := bind_eq_ok.mp h
    obtain ⟨arena, written, h⟩ := bind_eq_ok.mp h
    have counts := sameCounts_set read written rfl rfl
    split at h
  · obtain ⟨arena', scaled, h⟩ := bind_eq_ok.mp h
    cases h
    obtain ⟨edits, size, wasted, places⟩ := sameCounts_scaleActivities scaled
    exact counts.trans ⟨edits, fun _ => rfl, size, wasted, places⟩
  · cases h
    exact counts
  · obtain ⟨arena', -, h⟩ := bind_eq_ok.mp h
    cases h
    rfl
  · cases h
    rfl

/-! ## Visits -/

/-- Adding a watcher is seen at the end of its list and nowhere else. -/
theorem watchers_watch {l : Lit} (h : n.watch l w = .ok n') (j : Lit) :
    n'.watchers j = if j = l then n.watchers j ++ [w] else n.watchers j := by
  obtain ⟨watches, changed, h⟩ := bind_eq_ok.mp h
  cases h
  obtain ⟨old, read, written⟩ := DenseMap.modify_eq_ok.mp changed
  unfold watchers
  simp only [DenseMap.get_set written]
  by_cases same : j = l
  · subst same
    rw [if_pos rfl, if_pos rfl, read]
    exact Array.toList_push
  · rw [if_neg same, if_neg same]

theorem db_watch {l : Lit} (h : n.watch l w = .ok n') : n'.db = n.db := by
  rw [(watch_eq_ok h).2]

/-- A visit leaves the counters and the rows alone. -/
theorem visit_counts {v : Visit} (h : n.visit p w = .ok (n', v)) :
    n.SameCounts n' ∧ n'.row = n.row := by
  obtain ⟨_, -, h⟩ := bind_eq_ok.mp h
  split at h
  · cases h
    exact ⟨.refl _, rfl⟩
  obtain ⟨c, read, h⟩ := bind_eq_ok.mp h
  obtain ⟨_, -, h⟩ := bind_eq_ok.mp h
  obtain ⟨_, -, h⟩ := bind_eq_ok.mp h
  simp only at h
  have size := c.size_watchSecond (-p)
  have learnt := c.learnt_watchSecond (-p)
  split at h
  · obtain ⟨arena, written, h⟩ := bind_eq_ok.mp h
    cases h
    exact ⟨sameCounts_set read written size learnt, rfl⟩
  obtain ⟨found, searched, h⟩ := bind_eq_ok.mp h
  cases found with
  | some parts =>
      obtain ⟨arena, written, h⟩ := bind_eq_ok.mp h
      obtain ⟨_, -, h⟩ := bind_eq_ok.mp h
      obtain ⟨n₁, watching, h⟩ := bind_eq_ok.mp h
      cases h
      have db := db_watch watching
      -- the literal that is watched no longer takes the place of the one that was found
      have moved : (parts.1 ++ -p :: parts.2.2).length + 2 = (c.watchSecond (-p)).size := by
        rw [Clause.size, (findWatch_some searched).1]
        simp
      have counts := sameCounts_set read written (moved.trans size) learnt
      refine ⟨counts.trans (.of_eq db), ?_⟩
      funext learnt
      unfold row
      rw [db]
  | none =>
      obtain ⟨arena, written, h⟩ := bind_eq_ok.mp h
      have counts := sameCounts_set read written size learnt
      split at h
      · cases h
        exact ⟨counts, rfl⟩
      · obtain ⟨n₁, assigned, h⟩ := bind_eq_ok.mp h
        cases h
        have db := (enqueued assigned).db
        refine ⟨counts.trans (.of_eq db), ?_⟩
        funext learnt
        unfold row
        rw [db]

/-- A visit is a chain of steps, with the list of the literal on the way. -/
theorem visit_chain (rows : Bool → List ClauseId) {v : Visit} {before after : List Watcher}
    (core : n.Core) (true_ : p ∈ n.trail.lits) (h : n.visit p w = .ok (n', v))
    (here : lists p = before ++ w :: after) (away : ∀ l, l ≠ p → lists l = n.watchers l) :
    ∃ lists', Chain ⟨n, lists, rows⟩ ⟨n', lists', rows⟩ ∧
      lists' p = before ++ (v.stays ++ after) ∧ ∀ l, l ≠ p → lists' l = n'.watchers l := by
  obtain ⟨counts, -⟩ := visit_counts h
  -- Turning a clause changes the blocker of its watcher in the list on the way.
  have turning : ∀ {m : Network} {c c' : Clause}, n.Turned p w.clause c c' m →
      n.SameCounts m → Step ⟨n, lists, rows⟩
        ⟨m, Function.update lists p (before ++ ⟨w.clause, c'.first⟩ :: after), rows⟩ ∧
      ∀ l, l ≠ p → Function.update lists p (before ++ ⟨w.clause, c'.first⟩ :: after) l =
        m.watchers l := fun {m c c'} t same =>
    ⟨.turn (v := ⟨n, lists, rows⟩) t same true_ here c'.first_mem, fun l other => by
      rw [Function.update_of_ne other, away l other, watchers_congr t.watches]⟩
  cases visited core.trail core.distinct true_ h with
  | blocked => exact ⟨lists, .refl, here, away⟩
  | satisfied t =>
      obtain ⟨step, rest⟩ := turning t counts
      exact ⟨_, .single step, Function.update_self .., rest⟩
  | conflict t =>
      obtain ⟨step, rest⟩ := turning t counts
      exact ⟨_, .single step, Function.update_self .., rest⟩
  | @unit n₁ _ c c' t _ e =>
      have same : n.SameCounts n₁ := counts.trans (.of_eq e.db.symm)
      obtain ⟨step, rest⟩ := turning t same
      refine ⟨_, .tail (.single step) (.imply t.body_self e), Function.update_self ..,
        fun l other => ?_⟩
      exact (rest l other).trans (congrFun (watchers_congr e.watches).symm l)
  | @moved n₁ _ c c' r firstNe secondNe first watching =>
      have db := db_watch watching
      have same : n.SameCounts n₁ := counts.trans (.of_eq db.symm)
      have steady : n₁.Steady n' := by
        obtain ⟨size, e⟩ := watch_eq_ok watching
        rw [e]
        exact ⟨rfl, rfl, rfl, rfl, id, size, fun _ => rfl, rfl, .of_eq rfl⟩
      have ne : p ≠ -c'.second := fun e => secondNe (by rw [e, Lit.neg_neg])
      refine ⟨_, .tail (.single (.move (v := ⟨n, lists, rows⟩) r same firstNe secondNe first here))
        (.steady steady), ?_, fun l other => ?_⟩
      · dsimp only
        rw [Function.update_of_ne ne, Function.update_self]
        rfl
      · dsimp only
        rw [watchers_watch watching, watchers_congr r.watches]
        by_cases new : l = -c'.second
        · subst new
          rw [Function.update_self, if_pos rfl, away _ other]
        · rw [Function.update_of_ne new, Function.update_of_ne other, if_neg new, away l other]

/-! ## Propagation -/

theorem visit_row {v : Visit} (h : n.visit p w = .ok (n', v)) : n'.row = n.row :=
  (visit_counts h).2

/-- A visit takes nothing off the trail. -/
theorem visit_grows {v : Visit} (core : n.Core) (true_ : p ∈ n.trail.lits)
    (h : n.visit p w = .ok (n', v)) : n.trail.Grows n'.trail :=
  (visited core.trail core.distinct true_ h).grows

/-- The walk along a list is a chain of visits. -/
theorem scan_chain (rows : Bool → List ClauseId) {kept : Array Watcher} {ws : List Watcher}
    {kept' : Array Watcher} {conflict : Option ClauseId}
    (h : n.scan p kept ws = .ok (n', kept', conflict)) (core : n.Core)
    (true_ : p ∈ n.trail.lits) (here : lists p = kept.toList ++ ws)
    (away : ∀ l, l ≠ p → lists l = n.watchers l) :
    ∃ lists', Chain ⟨n, lists, rows⟩ ⟨n', lists', rows⟩ ∧ lists' p = kept'.toList ∧
      (∀ l, l ≠ p → lists' l = n'.watchers l) ∧ n'.row = n.row ∧ n.trail.Grows n'.trail := by
  induction ws generalizing n kept lists with
  | nil =>
      cases h
      exact ⟨lists, .refl, by simpa using here, away, rfl, .refl _⟩
  | cons w ws ih =>
      obtain ⟨⟨n₁, v⟩, visit, h⟩ := bind_eq_ok.mp h
      obtain ⟨lists₁, chain, here₁, away₁⟩ := visit_chain rows core true_ visit here away
      have row := visit_row visit
      have grows := visit_grows core true_ visit
      have core₁ : n₁.Core := View.Chain.core chain core
      cases v with
      | keep w' =>
          obtain ⟨lists', chain', rest⟩ := ih h core₁
            (grows.lits true_) (by rw [here₁]; simp [Visit.stays]) away₁
          exact ⟨lists', chain.trans chain', rest.1, rest.2.1, rest.2.2.1.trans row,
            grows.trans rest.2.2.2⟩
      | moved =>
          obtain ⟨lists', chain', rest⟩ := ih h core₁ (grows.lits true_)
            (by rw [here₁]; simp [Visit.stays]) away₁
          exact ⟨lists', chain.trans chain', rest.1, rest.2.1, rest.2.2.1.trans row,
            grows.trans rest.2.2.2⟩
      | conflict w' =>
          cases h
          exact ⟨lists₁, chain, by rw [here₁]; simp [Visit.stays], away₁, row, grows⟩

/-- Writing one list leaves the others as they are. -/
theorem watchers_set {watches : DenseMap Lit (Array Watcher)} {list : Array Watcher}
    (written : n.watches.set p list = .ok watches) :
    { n with watches }.watchers = Function.update n.watchers p list.toList := by
  funext l
  unfold watchers
  simp only [DenseMap.get_set written]
  by_cases same : l = p
  · subst same
    rw [if_pos rfl, Function.update_self]
  · rw [if_neg same, Function.update_of_ne same]

theorem steady_watches {watches : DenseMap Lit (Array Watcher)}
    (size : watches.size = n.watches.size) : n.Steady { n with watches } :=
  ⟨rfl, rfl, rfl, rfl, id, size, fun _ => rfl, rfl, .of_eq rfl⟩

/-- The list of a literal is away from the network while it is walked along. -/
theorem watchers_away {watches : DenseMap Lit (Array Watcher)} {list : Array Watcher}
    (read : n.watches.get p = .ok list) (emptied : n.watches.set p #[] = .ok watches) :
    n.watchers p = (#[] : Array Watcher).toList ++ list.toList ∧
      ∀ l, l ≠ p → n.watchers l = { n with watches }.watchers l := by
  constructor
  · unfold watchers
    rw [read]
    rfl
  · intro l other
    rw [watchers_set emptied, Function.update_of_ne other]

/-- Walking along the list of a literal is a chain of visits, with the list taken out and put
back. -/
theorem visitAll_chain {conflict : Option ClauseId} (core : n.Core) (true_ : p ∈ n.trail.lits)
    (h : n.visitAll p = .ok (n', conflict)) :
    Chain n.view n'.view ∧ n'.row = n.row ∧ n.trail.Grows n'.trail := by
  obtain ⟨list, watches, n₁, kept, _, watches', read, emptied, scanned, -, -, filled, rfl⟩ :=
    visitAll_eq_ok h
  have first : Step n.view ⟨{ n with watches }, n.watchers, n.row⟩ :=
    .steady (v := n.view) (steady_watches (DenseMap.size_set emptied))
  obtain ⟨here, away⟩ := watchers_away read emptied
  obtain ⟨lists', chain, at_, rest, row, grows⟩ :=
    scan_chain n.row scanned ⟨core.trail, core.distinct⟩ true_ here away
  have last : Step ⟨n₁, lists', n.row⟩ { n₁ with watches := watches' }.view := by
    have same : lists' = { n₁ with watches := watches' }.watchers := by
      rw [watchers_set filled]
      funext l
      by_cases same : l = p
      · subst same
        rw [Function.update_self, at_]
      · rw [Function.update_of_ne same, rest l same]
    have row' : n.row = { n₁ with watches := watches' }.row := row.symm
    rw [view, ← same, ← row']
    exact .steady (v := ⟨n₁, lists', n.row⟩) (steady_watches (DenseMap.size_set filled))
  exact ⟨((Relation.ReflTransGen.single first).trans chain).tail last, row, grows⟩

/-- Moving the head of the queue changes nothing else. -/
theorem withHead_step {i : Nat} (low : i ≤ n.trail.lits.size) :
    Step n.view (n.withHead i).view :=
  .steady (v := n.view)
    ⟨rfl, rfl, rfl, rfl, fun _ => low, rfl, fun _ => rfl, rfl, .of_eq rfl⟩

/-- By induction over the steps, propagation is a chain of visits. -/
theorem drain_chain {fuel count count' : Nat} {conflict : Option ClauseId}
    (h : drain fuel n count = .ok (n', conflict, count')) (core : n.Core) :
    Chain n.view n'.view ∧ n'.row = n.row ∧ n.trail.Grows n'.trail := by
  induction fuel generalizing n count with
  | zero =>
      unfold drain at h
      split at h
      · cases h
        exact ⟨.refl, rfl, .refl _⟩
      · cases h
  | succ fuel ih =>
      unfold drain at h
      split at h
      next =>
        cases h
        exact ⟨.refl, rfl, .refl _⟩
      next p here =>
        have low := (Array.getElem?_eq_some_iff.mp here).1
        have first : Step n.view (n.withHead (n.trail.head + 1)).view := withHead_step low
        obtain ⟨⟨n₁, found⟩, visited, h⟩ := bind_eq_ok.mp h
        have core₁ := first.core core
        obtain ⟨chain, row, grows⟩ := visitAll_chain core₁ (Array.mem_of_getElem? here) visited
        have chain₁ : Chain n.view n₁.view := (Relation.ReflTransGen.single first).trans chain
        have grows₁ : n.trail.Grows n₁.trail :=
          ⟨grows.marks, grows.lits, grows.size, grows.unknown⟩
        cases found with
        | some id =>
            cases h
            have last : Step n₁.view n₁.skipQueue.view := withHead_step (Nat.le_refl _)
            exact ⟨chain₁.tail last, row, grows₁.marks, grows₁.lits, grows₁.size, grows₁.unknown⟩
        | none =>
            obtain ⟨chain', row', grows'⟩ := ih h (View.Chain.core chain core₁)
            exact ⟨chain₁.trans chain', row'.trans row, grows₁.trans grows'⟩

/-- A propagation is a chain of visits. -/
theorem propagate_chain {count : Nat} {conflict : Option ClauseId} (core : n.Core)
    (h : n.propagate = .ok (n', conflict, count)) :
    Chain n.view n'.view ∧ n'.row = n.row ∧ n.trail.Grows n'.trail := drain_chain h core

/-! ## Assigning and levels -/

theorem Enqueued.view_eq {r : Reason} (e : n.Enqueued p r n') :
    (⟨n', n.watchers, n.row⟩ : View) = n'.view :=
  view_congr e.watches (by funext learnt; unfold row; rw [e.db])

/-- A literal without reason is a fact of the root level, or begins a level. -/
theorem Enqueued.lead {n' : Network} (e : n.Enqueued p .decision n')
    (starts : n.trail.level = 0 ∨ n.trail.marks.back? = some n.trail.lits.size) :
    Step n.view n'.view := by
  rw [← e.view_eq]
  exact .lead starts e

/-- A literal may be assigned for a stored clause of which it is the first. -/
theorem Enqueued.imply {id : ClauseId} {c : Clause} (stored : n.body? id = some c)
    (e : n.Enqueued c.first (reasonFrom id c) n') : Step n.view n'.view := by
  rw [← e.view_eq]
  exact .imply stored e

theorem BackedTo.step {k : Nat} (b : n.BackedTo k n') : Step n.view n'.view := by
  rw [← view_congr b.watches (by funext learnt; unfold row; rw [b.db])]
  exact .back b

theorem openLevel_step (n : Network) : Step n.view n.openLevel.view := .openLevel

/-- The lists of a new variable are empty. -/
theorem get_watches_addVar {x : Var} {observed : Bool}
    (size : n.watches.size = 2 * n.trail.numVars) (fresh : x.index = n.trail.numVars) (l : Lit) :
    (n.addVar x observed).watches.get l = if l.var = x then .ok #[] else n.watches.get l := by
  have negative : DenseKey.toIndex (⟨x, false⟩ : Lit) = n.watches.size := by
    simp [Lit.code, fresh, size]
  have positive : DenseKey.toIndex (⟨x, true⟩ : Lit) =
      (n.watches.insert (⟨x, false⟩ : Lit) #[] #[]).size := by
    rw [DenseMap.size_insert, negative]
    simp [Lit.code, fresh, size]
  refine (DenseMap.get_insert_size positive).trans ?_
  rw [DenseMap.get_insert_size negative]
  by_cases own : l.var = x
  · have same : l = ⟨x, l.sign⟩ := by rw [← own]
    rw [if_pos own, same]
    cases l.sign <;> simp
  · have away : ∀ s, l ≠ ⟨x, s⟩ := fun s e => own (congrArg Lit.var e)
    rw [if_neg (away _), if_neg (away _), if_neg own]

/-- A new variable has no watchers. -/
theorem watchers_addVar {x : Var} {observed : Bool}
    (size : n.watches.size = 2 * n.trail.numVars) (fresh : x.index = n.trail.numVars) :
    (n.addVar x observed).watchers = n.watchers := by
  funext l
  unfold watchers
  rw [get_watches_addVar size fresh]
  by_cases own : l.var = x
  · rw [if_pos own]
    -- A key beyond the size cannot be read.
    cases read : n.watches.get l with
    | error => rfl
    | ok ws =>
        have inside := DenseMap.toIndex_lt read
        rw [size, Lit.toIndex_eq, Lit.code, own, fresh] at inside
        omega
  · rw [if_neg own]

/-- Adding a variable is a step. -/
theorem addVar_step {x : Var} {observed : Bool} (size : n.watches.size = 2 * n.trail.numVars)
    (fresh : x.index = n.trail.numVars) : Step n.view (n.addVar x observed).view := by
  have same : (n.addVar x observed).watchers = n.watchers := watchers_addVar size fresh
  have e : (⟨n.addVar x observed, n.watchers, n.row⟩ : View) = (n.addVar x observed).view := by
    rw [view, same]
    rfl
  rw [← e]
  exact .addVar fresh

/-! ## Storing -/

/-- One of the tallies changes. -/
theorem tally_retally {learnt : Bool} {f : Tally → Except Fault Tally}
    (h : n.retally learnt f = .ok n') :
    f (n.tally learnt) = .ok (n'.tally learnt) ∧ ∀ b, b ≠ learnt → n'.tally b = n.tally b := by
  cases learnt with
  | true =>
      obtain ⟨t, done, h⟩ := bind_eq_ok.mp h
      cases h
      refine ⟨done, fun b other => ?_⟩
      cases b with
      | true => exact absurd rfl other
      | false => rfl
  | false =>
      obtain ⟨t, done, h⟩ := bind_eq_ok.mp h
      cases h
      refine ⟨done, fun b other => ?_⟩
      cases b with
      | true => rfl
      | false => exact absurd rfl other

theorem row_retally {learnt : Bool} {f : Tally → Except Fault Tally}
    (h : n.retally learnt f = .ok n') : n'.row = n.row ∧ n'.watchers = n.watchers ∧
      n'.db.arena = n.db.arena := by
  obtain ⟨_, _, rfl⟩ := retally_eq_ok h
  exact ⟨rfl, rfl, rfl⟩

/-- A clause is put into its watch lists and counted. -/
theorem posted_attach {id : ClauseId} (h : n.attach id = .ok n') : ∃ c, n.clause id = .ok c ∧
    n'.watchers = View.post n.watchers id c ∧ n'.row = n.row ∧ n'.db.arena = n.db.arena ∧
    ∀ b, n'.tally b = if b = c.learnt then (n.tally b).add c.size else n.tally b := by
  obtain ⟨c, read, h⟩ := bind_eq_ok.mp h
  obtain ⟨n₁, first, h⟩ := bind_eq_ok.mp h
  obtain ⟨n₂, second, h⟩ := bind_eq_ok.mp h
  have db : n₂.db = n.db := (db_watch second).trans (db_watch first)
  obtain ⟨rows_eq, lists_eq, arena⟩ := row_retally h
  obtain ⟨counted, others⟩ := tally_retally h
  have tally : n₂.tally = n.tally := by funext b; unfold Network.tally; rw [db]
  refine ⟨c, read, ?_, ?_, by rw [arena, db], fun b => ?_⟩
  · rw [lists_eq]
    funext l
    rw [watchers_watch second, watchers_watch first]
    unfold View.post
    split <;> split <;> simp
  · rw [rows_eq]
    funext b
    unfold row
    rw [db]
  · split
    next same =>
      rw [same, ← tally]
      exact (Except.ok.inj counted).symm
    next other => rw [others b other, tally]

/-- A clause that is stored comes last in its row. -/
theorem row_addClause {lits : List Lit} {learnt : Bool} {id : ClauseId}
    (h : n.addClause lits learnt = .ok (n', id)) :
    n'.row = fun b => if b = learnt then n.row b ++ [id] else n.row b := by
  obtain ⟨d, -, h⟩ := bind_eq_ok.mp h
  obtain ⟨⟨arena, id'⟩, -, h⟩ := bind_eq_ok.mp h
  obtain ⟨n₁, attached, h⟩ := bind_eq_ok.mp h
  cases h
  obtain ⟨_, -, -, row, -⟩ := posted_attach attached
  rw [row]
  funext b
  cases learnt <;> cases b <;> simp [Network.row]

/-- Storing a clause is a step. -/
theorem addClause_step {lits : List Lit} {learnt : Bool} {id : ClauseId}
    (h : n.addClause lits learnt = .ok (n', id)) (once : (lits.map Lit.var).Nodup)
    (known : ∀ l ∈ lits, l.var.index < n.trail.numVars) :
    ∃ c, c.lits = lits ∧ c.learnt = learnt ∧ n.Stores id c n' ∧ Step n.view n'.view := by
  have rows := row_addClause h
  obtain ⟨c, litsEq, learntEq, stores⟩ := stores h
  obtain ⟨d, made, h⟩ := bind_eq_ok.mp h
  obtain ⟨⟨arena, id'⟩, allocated, h⟩ := bind_eq_ok.mp h
  obtain ⟨n₁, attached, h⟩ := bind_eq_ok.mp h
  cases h
  obtain ⟨c', read, watchers, -, arena', tally⟩ := posted_attach attached
  obtain ⟨size, wasted⟩ := Arena.words_alloc allocated
  -- The clause that was put into the lists is the one that was stored.
  have own : c'.body = c := by
    have here : n'.body? id = some c'.body := by
      unfold body?
      rw [arena']
      exact Arena.body?_of_get read
    exact Option.some.inj (here.symm.trans stores.body_new)
  have first : c'.first = c.first := by rw [← own]; rfl
  have second : c'.second = c.second := by rw [← own]; rfl
  have kind : c'.learnt = c.learnt := by rw [← own]; rfl
  have total : c'.size = c.size := by rw [← own]; rfl
  have kind' : learnt = c.learnt := learntEq.symm
  have words : d.words = c.words := by
    have stored := Arena.body?_alloc allocated id
    rw [if_pos rfl] at stored
    have here := stores.body_new
    unfold body? at here
    rw [arena'] at here
    have same : d.body = c := by
      cases learnt <;> exact Option.some.inj (stored.symm.trans here)
    rw [← same]
    rfl
  have e : (⟨n', View.post n.watchers id c, fun b =>
      if b = c.learnt then n.row b ++ [id] else n.row b⟩ : View) = n'.view := by
    have posted : View.post n.watchers id c = n'.watchers := by
      rw [watchers]
      funext l
      unfold View.post
      rw [first, second]
      cases learnt <;> rfl
    rw [view, posted, rows, kind']
  refine ⟨c, litsEq, learntEq, stores, ?_⟩
  rw [← e]
  refine .store (v := n.view) stores ?_ (litsEq ▸ once) (litsEq ▸ known) (fun b => ?_) ?_ ?_
    fun j => ?_
  · have edit : n.db.arena.Edit arena := .alloc (Clause.activity_ofLits made) allocated
    rw [arena']
    cases learnt <;> exact .single edit
  · rw [tally, kind, total]
    cases learnt <;> rfl
  · rw [arena', ← words]
    cases learnt <;> exact size
  · rw [arena']
    cases learnt <;> exact wasted
  · rw [arena']
    cases learnt <;> exact Arena.place?_alloc allocated j

end Network

end Cdcl
