import Cdcl.Proofs.Observed
import Cdcl.Proofs.Watching

/-!
# Propagation that succeeds

In a network whose maps cover its variables, and whose clauses are indexed and grounded,
propagation does not fail.  In particular the bound on the number of its steps is never
reached: each step propagates one literal, and a variable is assigned at most once.

* `failsOnly_visit`, `failsOnly_scan` — one visit, and the walk along a list;
* `length_lits_le` — no more literals are assigned than there are variables;
* `failsOnly_propagate` — the whole propagation.
-/

namespace Cdcl

variable {e : Fault → Prop}

/-! ## Looking things up -/

/-- Assigned literals are of variables that exist. -/
theorem Trail.WF.index_lt {t : Trail} {l : Lit} (w : t.WF) (inside : l ∈ t.lits) :
    l.var.index < t.numVars := by
  obtain ⟨o, read⟩ := w.exists_origin inside
  exact Nat.lt_of_lt_of_eq (DenseMap.toIndex_lt read) w.sizes

theorem Lit.code_lt {l : Lit} {n : Nat} (low : l.var.index < n) : l.code < 2 * n := by
  unfold code
  cases l.sign <;> simp only [Bool.toNat_true, Bool.toNat_false] <;> omega

namespace Trail

variable {t : Trail} {l : Lit} {v : Var}

theorem failsOnly_litValue (low : l.var.index < t.numVars) : FailsOnly e (t.litValue l) :=
  .bind (DenseMap.failsOnly_get low) fun _ _ => .ok _

theorem failsOnly_levelOf (w : t.WF) (low : v.index < t.numVars) : FailsOnly e (t.levelOf v) :=
  .bind (DenseMap.failsOnly_get (Nat.lt_of_lt_of_eq low w.sizes.symm)) fun _ _ => .ok _

theorem failsOnly_reasonOf (w : t.WF) (low : v.index < t.numVars) :
    FailsOnly e (t.reasonOf v) :=
  .bind (DenseMap.failsOnly_get (Nat.lt_of_lt_of_eq low w.sizes.symm)) fun _ _ => .ok _

theorem failsOnly_push {r : Reason} (w : t.WF) (free : t.litValue l = .ok .unknown) :
    FailsOnly e (t.push l r) := by
  obtain ⟨y, read, -⟩ := litValue_eq_ok.mp free
  have low : l.var.index < t.numVars := DenseMap.toIndex_lt read
  refine .bind_ok free ?_
  refine .ite (fun _ => ?_) fun known => absurd rfl known
  refine .bind (DenseMap.failsOnly_set low) fun values _ => ?_
  exact .bind (DenseMap.failsOnly_set (Nat.lt_of_lt_of_eq low w.sizes.symm)) fun _ _ => .ok _

/-- No more literals are assigned than there are variables. -/
theorem length_lits_le (w : t.WF) : t.lits.size ≤ t.numVars := by
  have once : ((t.lits.toList.map Lit.var).map Var.index).Nodup :=
    w.once.map fun _ _ same => LawfulKey.eq_of_toIndex same
  have sub : (t.lits.toList.map Lit.var).map Var.index ⊆ List.range t.numVars := by
    intro i inside
    obtain ⟨v, given, rfl⟩ := List.mem_map.mp inside
    obtain ⟨l, here, rfl⟩ := List.mem_map.mp given
    exact List.mem_range.mpr (w.index_lt (Array.mem_toList_iff.mp here))
  simpa using (once.subperm sub).length_le

end Trail

namespace Arena

variable {a : Arena} {id : ClauseId} {b : Clause}

theorem failsOnly_get (stored : a.body? id = some b) : FailsOnly e (a.get id) := by
  obtain ⟨s, found, -⟩ := Option.map_eq_some_iff.mp stored
  unfold get
  rw [found]
  exact .ok _

theorem failsOnly_set {c : Clause} (stored : a.body? id = some b) : FailsOnly e (a.set id c) := by
  obtain ⟨s, found, -⟩ := Option.map_eq_some_iff.mp stored
  unfold set
  rw [found]
  exact .ok _

end Arena

namespace Network

variable {n n' : Network} {p : Lit} {w : Watcher} {lists : Lit → List Watcher}
  {rows : Bool → List ClauseId}

/-- The maps of the network cover its variables. -/
structure Sized (n : Network) : Prop where
  watches : n.watches.size = 2 * n.trail.numVars
  observed : n.observed.size = n.trail.numVars

/-- A literal without a value can be assigned, and whether its variable is observed looked up. -/
theorem failsOnly_enqueue {r : Reason} (t : n.trail.WF) (z : n.Sized)
    (free : n.trail.litValue p = .ok .unknown) : FailsOnly e (n.enqueue p r) := by
  obtain ⟨y, read, -⟩ := Trail.litValue_eq_ok.mp free
  have low : p.var.index < n.observed.size := by
    rw [z.observed]
    exact DenseMap.toIndex_lt read
  refine .bind (DenseMap.failsOnly_get low) fun observed _ => ?_
  refine .bind (Trail.failsOnly_push t free) fun trail _ => ?_
  exact .ite (fun _ => .ok _) fun _ => .ok _

theorem failsOnly_watch (z : n.Sized) (low : p.var.index < n.trail.numVars) :
    FailsOnly e (n.watch p w) := by
  have covered : p.code < n.watches.size := Nat.lt_of_lt_of_eq (Lit.code_lt low) z.watches.symm
  exact .bind (DenseMap.failsOnly_modify covered) fun _ _ => .ok _

theorem failsOnly_findWatch {t : Trail} {ls : List Lit}
    (low : ∀ l ∈ ls, l.var.index < t.numVars) : FailsOnly e (findWatch t ls) := by
  induction ls with
  | nil => exact .ok _
  | cons l ls ih =>
      refine .bind (Trail.failsOnly_litValue (low l List.mem_cons_self)) fun x _ => ?_
      refine .ite (fun _ => .ok _) fun _ => ?_
      refine .bind (ih fun l' later => low l' (List.mem_cons_of_mem l later)) fun choice _ => ?_
      cases choice <;> exact .ok _

/-! ## One visit -/

/-- A clause that is visited watches the literal that has become false. -/
theorem second_watchSecond {c : Clause} {l : Lit} (watched : l = c.first ∨ l = c.second) :
    (c.watchSecond l).second = l := by
  unfold Clause.watchSecond
  split
  · rfl
  next ne => exact (watched.resolve_left (Ne.symm ne)).symm

/-- A visit meets a live clause that watches the literal, and assigns only what has no value. -/
theorem failsOnly_visit {before after : List Watcher} (core : n.Core)
    (sturdy : View.Sturdy ⟨n, lists, rows⟩) (z : n.Sized) (true_ : p ∈ n.trail.lits)
    (here : lists p = before ++ w :: after) : FailsOnly e (n.visit p w) := by
  have listed : w ∈ lists p := here ▸ List.mem_append_right before List.mem_cons_self
  obtain ⟨b, stored, watched⟩ := sturdy.indexed.watching listed
  have stored : n.body? w.clause = some b := stored
  have known := sturdy.ranged.clauses stored
  refine .bind (Trail.failsOnly_litValue (sturdy.ranged.blockers listed)) fun x readBlocker => ?_
  refine .ite (fun _ => .ok _) fun unblocked => ?_
  refine .bind (Arena.failsOnly_get stored) fun d read => ?_
  cases stored.symm.trans (Arena.body?_of_get read)
  have second : (d.watchSecond (-p)).second = -p := second_watchSecond watched
  have vars : (d.body.lits.map Lit.var).Nodup := core.distinct stored
  have f : Facing n.trail p d (d.watchSecond (-p)) := facing core.trail true_ vars second
  dsimp only
  refine .bind (.ensure (decide_eq_true second)) fun _ _ => ?_
  generalize d.watchSecond (-p) = c at f second
  have known : ∀ l ∈ c.lits, l.var.index < n.trail.numVars := fun l hl =>
    known l (f.perm.subset hl)
  refine .bind (Trail.failsOnly_litValue (known _ c.first_mem)) fun firstValue readFirst => ?_
  refine .ite (fun _ => ?_) fun open_ => ?_
  · exact .bind (Arena.failsOnly_set stored) fun _ _ => .ok _
  have knownRest : ∀ l ∈ c.rest, l.var.index < n.trail.numVars := fun l hl =>
    known l (List.mem_cons_of_mem _ (List.mem_cons_of_mem _ hl))
  refine .bind (failsOnly_findWatch knownRest) fun choice searched => ?_
  cases choice with
  | some found =>
      obtain ⟨before, found, after⟩ := found
      obtain ⟨split_, -⟩ := findWatch_some searched
      have ne : -found ≠ p := fun same => f.found_ne split_ (by rw [← same, Lit.neg_neg])
      refine .bind (Arena.failsOnly_set stored) fun arena _ => ?_
      refine .bind (.ensure (decide_eq_true ne)) fun _ _ => ?_
      refine .bind (failsOnly_watch ⟨z.watches, z.observed⟩ ?_) fun _ _ => .ok _
      exact knownRest found (split_ ▸ List.mem_append_right before List.mem_cons_self)
  | none =>
      refine .bind (Arena.failsOnly_set stored) fun arena _ => ?_
      refine .ite (fun _ => .ok _) fun notFalse => ?_
      -- the first literal is not the blocker, or it is not true either
      have unknown : firstValue = .unknown := by
        cases firstValue with
        | unknown => rfl
        | fails => exact absurd rfl notFalse
        | holds =>
            have isBlocker : c.first = w.blocker := by
              by_contra other
              exact open_ ⟨other, rfl⟩
            rw [isBlocker] at readFirst
            exact absurd (Except.ok.inj (readBlocker.symm.trans readFirst)) unblocked
      subst unknown
      refine .bind (failsOnly_enqueue core.trail ⟨z.watches, z.observed⟩ readFirst) ?_
      exact fun _ _ => .ok _

/-- What a visit to a clause that watches the negation of `p` leaves as it is. -/
structure Keeps (p : Lit) (n n' : Network) : Prop where
  head : n'.trail.head = n.trail.head
  vars : n'.trail.numVars = n.trail.numVars
  size : n'.watches.size = n.watches.size
  list : n'.watches.get p = n.watches.get p
  observed : n'.observed = n.observed

namespace Keeps

theorem refl (p : Lit) (n : Network) : Keeps p n n := ⟨rfl, rfl, rfl, rfl, rfl⟩

theorem trans {n'' : Network} (a : Keeps p n n') (b : Keeps p n' n'') : Keeps p n n'' :=
  ⟨b.head.trans a.head, b.vars.trans a.vars, b.size.trans a.size, b.list.trans a.list,
    b.observed.trans a.observed⟩

theorem sized (k : Keeps p n n') (z : n.Sized) : n'.Sized :=
  ⟨by rw [k.size, k.vars, z.watches], by rw [k.observed, k.vars, z.observed]⟩

end Keeps

/-- A visit adds watchers to other lists only. -/
theorem keeps_visit {v : Visit} (core : n.Core) (true_ : p ∈ n.trail.lits)
    (h : n.visit p w = .ok (n', v)) : Keeps p n n' := by
  have observed := (drifts_visit h).silent.observed
  cases visited core.trail core.distinct true_ h with
  | blocked => exact .refl p n
  | satisfied t =>
      exact ⟨by rw [t.trail], by rw [t.trail], by rw [t.watches], by rw [t.watches], observed⟩
  | conflict t =>
      exact ⟨by rw [t.trail], by rw [t.trail], by rw [t.watches], by rw [t.watches], observed⟩
  | @unit n₁ _ c c' t _ e =>
      have head := Trail.head_push e.trail
      have vars := Trail.numVars_push e.trail
      rw [t.trail] at head vars
      exact ⟨head, vars, by rw [e.watches, t.watches], by rw [e.watches, t.watches], observed⟩
  | @moved n₁ _ c c' r _ secondNe _ watching =>
      have ne : DenseKey.toIndex (-c'.second) ≠ DenseKey.toIndex p := fun same =>
        secondNe (by rw [← Lit.code_inj same, Lit.neg_neg])
      obtain ⟨size, e⟩ := watch_eq_ok watching
      obtain ⟨watches, modified, watching⟩ := bind_eq_ok.mp watching
      obtain ⟨ws, -, written⟩ := DenseMap.modify_eq_ok.mp modified
      have list : n'.watches.get p = n₁.watches.get p := by
        cases watching
        exact DenseMap.get_set_ne written ne
      exact ⟨by rw [e, r.trail], by rw [e, r.trail], by rw [size, r.watches],
        by rw [list, r.watches], observed⟩

/-! ## The walk along a list -/

/-- By induction along the list, every visit succeeds. -/
theorem failsOnly_scan {kept : Array Watcher} {ws : List Watcher} (core : n.Core)
    (sturdy : View.Sturdy ⟨n, lists, rows⟩) (z : n.Sized) (true_ : p ∈ n.trail.lits)
    (here : lists p = kept.toList ++ ws) (away : ∀ l, l ≠ p → lists l = n.watchers l) :
    FailsOnly e (n.scan p kept ws) := by
  induction ws generalizing n kept lists with
  | nil => exact .ok _
  | cons w ws ih =>
      refine .bind (failsOnly_visit core sturdy z true_ here) fun ⟨n₁, v⟩ visit => ?_
      obtain ⟨lists₁, chain, here₁, away₁⟩ := visit_chain rows core true_ visit here away
      have core₁ : n₁.Core := View.Chain.core chain core
      have sturdy₁ := chain.sturdy core sturdy
      have z₁ := (keeps_visit core true_ visit).sized z
      have true₁ := (visit_grows core true_ visit).lits true_
      cases v with
      | keep w' => exact ih core₁ sturdy₁ z₁ true₁ (by rw [here₁]; simp [Visit.stays]) away₁
      | moved => exact ih core₁ sturdy₁ z₁ true₁ (by rw [here₁]; simp [Visit.stays]) away₁
      | conflict w' => exact .ok _

/-- By induction along the list, the visits add watchers to other lists only. -/
theorem keeps_scan {kept kept' : Array Watcher} {ws : List Watcher} {conflict : Option ClauseId}
    (core : n.Core) (true_ : p ∈ n.trail.lits) (here : lists p = kept.toList ++ ws)
    (away : ∀ l, l ≠ p → lists l = n.watchers l)
    (h : n.scan p kept ws = .ok (n', kept', conflict)) : Keeps p n n' := by
  induction ws generalizing n kept lists with
  | nil =>
      cases h
      exact .refl _ _
  | cons w ws ih =>
      obtain ⟨⟨n₁, v⟩, visit, h⟩ := bind_eq_ok.mp h
      obtain ⟨lists₁, chain, here₁, away₁⟩ := visit_chain (fun _ => []) core true_ visit here away
      have core₁ : n₁.Core := View.Chain.core chain core
      have keeps := keeps_visit core true_ visit
      have true₁ := (visit_grows core true_ visit).lits true_
      cases v with
      | keep w' =>
          exact keeps.trans (ih core₁ true₁ (by rw [here₁]; simp [Visit.stays]) away₁ h)
      | moved => exact keeps.trans (ih core₁ true₁ (by rw [here₁]; simp [Visit.stays]) away₁ h)
      | conflict w' =>
          cases h
          exact keeps

theorem failsOnly_visitAll (core : n.Core) (sturdy : n.view.Sturdy) (z : n.Sized)
    (true_ : p ∈ n.trail.lits) : FailsOnly e (n.visitAll p) := by
  have covered : DenseKey.toIndex p < n.watches.size := by
    rw [z.watches]
    exact Lit.code_lt (core.trail.index_lt true_)
  refine .bind (DenseMap.failsOnly_get covered) fun list read => ?_
  refine .bind (DenseMap.failsOnly_set covered) fun watches emptied => ?_
  have size := DenseMap.size_set emptied
  have core₁ : { n with watches }.Core := ⟨core.trail, core.distinct⟩
  have sturdy₁ : View.Sturdy ⟨{ n with watches }, n.watchers, n.row⟩ :=
    View.Step.sturdy (v := n.view) (.steady (steady_watches size)) core sturdy
  have z₁ : { n with watches }.Sized := ⟨size.trans z.watches, z.observed⟩
  obtain ⟨here, away⟩ := watchers_away read emptied
  refine .bind (failsOnly_scan core₁ sturdy₁ z₁ true_ here away) fun ⟨n₁, kept, _⟩ scanned => ?_
  have keeps := keeps_scan core₁ true_ here away scanned
  have empty : n₁.watches.get p = .ok #[] := by
    rw [keeps.list]
    exact DenseMap.get_set_self emptied
  refine .bind_ok empty ?_
  refine .bind (.ensure rfl) fun _ _ => ?_
  exact .bind (DenseMap.failsOnly_set (DenseMap.toIndex_lt empty)) fun _ _ => .ok _

/-- Afterwards the list is put back, so that the network is as large as it was. -/
theorem keeps_visitAll {conflict : Option ClauseId} (core : n.Core) (true_ : p ∈ n.trail.lits)
    (h : n.visitAll p = .ok (n', conflict)) :
    n'.trail.head = n.trail.head ∧ n'.trail.numVars = n.trail.numVars ∧
      (n.Sized → n'.Sized) := by
  obtain ⟨list, watches, n₁, kept, _, watches', read, emptied, scanned, -, -, filled, rfl⟩ :=
    visitAll_eq_ok h
  obtain ⟨here, away⟩ := watchers_away read emptied
  have core₁ : { n with watches }.Core := ⟨core.trail, core.distinct⟩
  have keeps := keeps_scan core₁ true_ here away scanned
  refine ⟨keeps.head, keeps.vars, fun z => ?_⟩
  have z₁ := keeps.sized ⟨(DenseMap.size_set emptied).trans z.watches, z.observed⟩
  exact ⟨(DenseMap.size_set filled).trans z₁.watches, z₁.observed⟩

/-! ## The queue -/

/-- Each step takes one literal from the queue, so there are enough of them. -/
theorem failsOnly_drain {fuel count : Nat} (core : n.Core) (sturdy : n.view.Sturdy)
    (z : n.Sized) (enough : n.trail.numVars ≤ fuel + n.trail.head) :
    FailsOnly e (drain fuel n count) := by
  induction fuel generalizing n count with
  | zero =>
      unfold drain
      split
      next => exact .ok _
      next p here =>
        have low := (Array.getElem?_eq_some_iff.mp here).1
        have few := Trail.length_lits_le core.trail
        omega
  | succ fuel ih =>
      unfold drain
      split
      next => exact .ok _
      next p here =>
        have low := (Array.getElem?_eq_some_iff.mp here).1
        have first : View.Step n.view (n.withHead (n.trail.head + 1)).view := withHead_step low
        have core₁ := first.core core
        have sturdy₁ := first.sturdy core sturdy
        have z₁ : (n.withHead (n.trail.head + 1)).Sized := ⟨z.watches, z.observed⟩
        have true_ : p ∈ (n.withHead (n.trail.head + 1)).trail.lits := Array.mem_of_getElem? here
        refine .bind (failsOnly_visitAll core₁ sturdy₁ z₁ true_) fun ⟨n₁, found⟩ visited => ?_
        cases found with
        | some id => exact .ok _
        | none =>
            obtain ⟨chain, -, -⟩ := visitAll_chain core₁ true_ visited
            obtain ⟨head, vars, sized⟩ := keeps_visitAll core₁ true_ visited
            have headHere : n₁.trail.head = n.trail.head + 1 := head
            have varsHere : n₁.trail.numVars = n.trail.numVars := vars
            exact ih (View.Chain.core chain core₁) (chain.sturdy core₁ sturdy₁) (sized z₁)
              (by omega)

theorem failsOnly_propagate (core : n.Core) (sturdy : n.view.Sturdy) (z : n.Sized) :
    FailsOnly e n.propagate :=
  failsOnly_drain core sturdy z (Nat.le_add_right _ _)

end Network

end Cdcl
