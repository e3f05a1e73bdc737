import Cdcl.Proofs.Closure
import Cdcl.Proofs.Rehearsing
import Cdcl.Proofs.Searching
import Cdcl.Proofs.Success.Simplifying
import Cdcl.Proofs.Twins.Search

/-!
# Simplification is complete

A clause is trimmed behind its two watched literals only, while the literals that are cut off
are replaced by the last ones and the row is walked along and shortened.  That nothing is
left over is due to the propagation before: in a clause without a true literal, neither of
the watched ones is false.

* `swept_trimClause`, `swept_removeClause` — what becomes of one clause;
* `Sweeps.trans` — walks compose, so that `sweep_sweeps` and `sweepAll_sweeps` are about the
  whole rows;
* `due_of_reports` — a simplification that is reported was made, and not only tried;
* `Reaches.simplifies_completely` — every simplification that is made in a run, by a call of
  its own or within a search, leaves nothing to simplify.
-/

namespace Cdcl

namespace Trail

variable {t t' : Trail}

/-- Forgetting reasons changes no value. -/
theorem Forgets.litValue (f : t.Forgets t') (l : Lit) : t'.litValue l = t.litValue l := by
  unfold Trail.litValue
  rw [f.values]

end Trail

namespace Network

variable {n n' n'' : Network} {t t' : Trail} {id : ClauseId} {c c' : Clause}
  {r : Except Fault Clause} {ids ids' : List ClauseId}

/-! ## One clause -/

/-- What becomes of a clause.  If it has a true literal it is gone.  Otherwise its false
literals are gone, which are not among the first two, and no literal that is left has a
value. -/
inductive Swept (t : Trail) (c : Clause) : Except Fault Clause → Prop
  | gone {l : Lit} {f : Fault} : l ∈ c.lits → t.litValue l = .ok .holds → Swept t c (.error f)
  | cut {rest : List Lit} :
      ({ c with rest } : Clause).lits.Perm (c.lits.filter fun l => t.litValue l ≠ .ok .fails) →
      (∀ l ∈ ({ c with rest } : Clause).lits, t.litValue l = .ok .unknown) →
      Swept t c (.ok { c with rest })

/-- What becomes of a clause depends on the values only. -/
theorem Swept.forget (f : t.Forgets t') (s : Swept t' c r) : Swept t c r := by
  cases s with
  | gone inside holds => exact .gone inside (f.litValue _ ▸ holds)
  | cut perm unknown =>
      simp only [f.litValue] at perm unknown
      exact .cut perm unknown

/-- Trimming cuts literals off one clause, whose watched literals have no value. -/
theorem clause_trimClause (h : n.trimClause id = .ok n') : ∃ c rest, n.clause id = .ok c ∧
    n.trail.litValue c.first = .ok .unknown ∧ n.trail.litValue c.second = .ok .unknown ∧
    cutFalse n.trail c.rest = .ok rest ∧ n'.trail = n.trail ∧
    ∀ j, n'.clause j = if j = id then .ok { c with rest } else n.clause j := by
  obtain ⟨c, read, h⟩ := bind_eq_ok.mp h
  obtain ⟨x, first, h⟩ := bind_eq_ok.mp h
  obtain ⟨_, unknown, h⟩ := bind_eq_ok.mp h
  obtain ⟨y, second, h⟩ := bind_eq_ok.mp h
  obtain ⟨_, unknown', h⟩ := bind_eq_ok.mp h
  obtain ⟨rest, cut, h⟩ := bind_eq_ok.mp h
  obtain ⟨arena, shrunk, counted⟩ := bind_eq_ok.mp h
  have unknown : x = .unknown := by simpa using ensure_eq_ok.mp unknown
  have unknown' : y = .unknown := by simpa using ensure_eq_ok.mp unknown'
  subst unknown unknown'
  obtain ⟨d, read', -, clauses⟩ := Arena.clause?_shrink shrunk
  cases read.symm.trans read'
  obtain ⟨_, _, rfl⟩ := retally_eq_ok counted
  refine ⟨c, rest, read, first, second, cut, rfl, fun j => ?_⟩
  change arena.get j = if j = id then _ else n.db.arena.get j
  rw [Arena.get_eq, Arena.get_eq, clauses]
  split <;> rfl

/-- A clause without a true literal is left without a false one. -/
theorem swept_trimClause (w : n.trail.WF) (read : n.clause id = .ok c)
    (tested : anyHolds n.trail c.lits = .ok false) (h : n.trimClause id = .ok n') :
    Swept n.trail c (n'.clause id) := by
  obtain ⟨d, rest, read', first, second, cut, -, clauses⟩ := clause_trimClause h
  cases read.symm.trans read'
  obtain ⟨perm, -⟩ := cutFalse_filter w cut
  have left : ({ c with rest } : Clause).lits.Perm
      (c.lits.filter fun l => n.trail.litValue l ≠ .ok .fails) := by
    unfold Clause.lits
    rw [List.filter_cons_of_pos (by simp [first]), List.filter_cons_of_pos (by simp [second])]
    exact (perm.cons _).cons _
  rw [clauses, if_pos rfl]
  refine .cut left fun l inside => ?_
  obtain ⟨inside, notFalse⟩ := List.mem_filter.mp (left.mem_iff.mp inside)
  obtain ⟨x, value, open_⟩ := anyHolds_false tested l inside
  cases x with
  | unknown => exact value
  | holds => exact absurd rfl open_
  | fails => simp [value] at notFalse

/-- A clause with a true literal is gone once it is removed. -/
theorem swept_removeClause (tested : anyHolds n.trail c.lits = .ok true)
    (h : (n.log (.removeSatisfied c.lits)).removeClause id = .ok n') :
    Swept n.trail c (n'.clause id) := by
  obtain ⟨l, inside, holds⟩ := anyHolds_iff tested
  rw [clause_removeClause h, if_pos rfl]
  exact .gone inside holds

/-! ## Whole rows -/

/-- The listed clauses have been swept, and the others are as they were. -/
structure Sweeps (ids : List ClauseId) (n n' : Network) : Prop where
  trail : n.trail.Forgets n'.trail
  others : ∀ id, id ∉ ids → n'.clause id = n.clause id
  swept : ∀ id ∈ ids, ∃ c, n.clause id = .ok c ∧ Swept n.trail c (n'.clause id)

namespace Sweeps

theorem of_same (trail : n.trail.Forgets n'.trail) (clause : ∀ id, n'.clause id = n.clause id) :
    Sweeps [] n n' := ⟨trail, fun id _ => clause id, by simp⟩

/-- No clause is swept twice. -/
theorem trans (a : Sweeps ids n n') (b : Sweeps ids' n' n'') (apart : ids.Disjoint ids') :
    Sweeps (ids ++ ids') n n'' where
  trail := a.trail.trans b.trail
  others id out := by
    simp only [List.mem_append, not_or] at out
    rw [b.others id out.2, a.others id out.1]
  swept id inside := by
    rcases List.mem_append.mp inside with here | here
    · rw [b.others id (apart here)]
      exact a.swept id here
    · obtain ⟨c, read, swept⟩ := b.swept id here
      rw [a.others id fun here' => apart here' here] at read
      exact ⟨c, read, swept.forget a.trail⟩

/-- The same clauses with another trail, on which no value differs. -/
theorem same (a : Sweeps ids n n') (trail : n'.trail.Forgets n''.trail)
    (clause : ∀ id, n''.clause id = n'.clause id) : Sweeps ids n n'' := by
  have both := a.trans (of_same trail clause) (List.disjoint_nil_right ids)
  rwa [List.append_nil] at both

end Sweeps

/-- By induction along the row, all its clauses are swept. -/
theorem sweep_sweeps {kept kept' : Array ClauseId} (w : n.trail.WF) (once : ids.Nodup)
    (h : n.sweep kept ids = .ok (n', kept')) : Sweeps ids n n' := by
  induction ids generalizing n kept with
  | nil =>
      cases h
      exact .of_same (.refl _) fun _ => rfl
  | cons id ids ih =>
      obtain ⟨new, once⟩ := List.nodup_cons.mp once
      have apart : [id].Disjoint ids := List.singleton_disjoint.mpr new
      obtain ⟨c, read, h⟩ := bind_eq_ok.mp h
      obtain ⟨satisfied, tested, h⟩ := bind_eq_ok.mp h
      cases satisfied with
      | true =>
          obtain ⟨n₁, removed, h⟩ := bind_eq_ok.mp h
          have forgets : n.trail.Forgets n₁.trail := (removes removed).trail
          have first : Sweeps [id] n n₁ := by
            refine ⟨forgets, fun j other => ?_, fun j same => ?_⟩
            · rw [clause_removeClause removed, if_neg (by simpa using other)]
              rfl
            · cases List.mem_singleton.mp same
              exact ⟨c, read, swept_removeClause tested removed⟩
          exact first.trans (ih (forgets.wf w) once h) apart
      | false =>
          obtain ⟨n₁, trimmed, h⟩ := bind_eq_ok.mp h
          obtain ⟨_, _, -, -, -, -, trail, clauses⟩ := clause_trimClause trimmed
          have first : Sweeps [id] n n₁ := by
            refine ⟨trail ▸ .refl _, fun j other => ?_, fun j same => ?_⟩
            · rw [clauses, if_neg (by simpa using other)]
            · cases List.mem_singleton.mp same
              exact ⟨c, read, swept_trimClause w read tested trimmed⟩
          exact first.trans (ih (trail ▸ w) once h) apart

/-- The clauses that a simplification looks at. -/
def sweptIds (n : Network) (problemToo : Bool) : List ClauseId :=
  n.row true ++ if problemToo then n.row false else []

/-- One row is swept after the other. -/
theorem sweepAll_sweeps {problemToo : Bool} (core : n.Core) (x : n.view.Indexed)
    (root : n.trail.level = 0) (h : n.sweepAll problemToo = .ok n') :
    Sweeps (n.sweptIds problemToo) n n' := by
  obtain ⟨n₁, first, h⟩ := bind_eq_ok.mp h
  obtain ⟨⟨n₂, learnts⟩, swept, first⟩ := bind_eq_ok.mp first
  cases first
  have learntsSwept : Sweeps (n.row true) n { n₂ with db := { n₂.db with learnts } } :=
    (sweep_sweeps core.trail (x.once true) swept).same (.refl _) fun _ => rfl
  cases problemToo with
  | false =>
      cases h
      simpa [sweptIds] using learntsSwept
  | true =>
      obtain ⟨⟨n₃, problem⟩, swept', h⟩ := bind_eq_ok.mp h
      cases h
      obtain ⟨-, row, -⟩ := sweep_chain true n.row swept core root (by simp [Network.row])
      have row : n₂.db.problem.toList = n.row false := congrFun row false
      rw [row] at swept'
      have wf := learntsSwept.trail.wf core.trail
      have problemSwept : Sweeps (n.row false) _ { n₃ with db := { n₃.db with problem } } :=
        (sweep_sweeps wf (x.once false) swept').same (.refl _) fun _ => rfl
      have apart : (n.row true).Disjoint (n.row false) :=
        fun _ learnt problem => (List.nodup_append.mp x.nodup_rows).2.2 _ problem _ learnt rfl
      exact learntsSwept.trans problemSwept apart

/-- Learnt clauses are looked at, and problem clauses if that is asked for. -/
theorem mem_sweptIds {problemToo : Bool} (x : n.view.Indexed) (read : n.clause id = .ok c) :
    id ∈ n.sweptIds problemToo ↔ c.learnt = true ∨ problemToo = true := by
  have kind : ∀ learnt, id ∈ n.row learnt ↔ c.learnt = learnt := fun learnt => by
    rw [mem_row x, read]
    exact ⟨fun ⟨_, same, kind⟩ => Except.ok.inj same ▸ kind, fun kind => ⟨c, rfl, kind⟩⟩
  unfold sweptIds
  cases problemToo <;> simp [kind]

/-- The clause is stored, and none of its literals has a value. -/
def Undecided (n : Network) (id : ClauseId) : Prop :=
  ∃ c, n.clause id = .ok c ∧ ∀ l ∈ c.lits, n.trail.litValue l = .ok .unknown

namespace Sweeps

/-- A clause that has been swept and is left has no literal with a value. -/
theorem survivor (a : Sweeps ids n n') (inside : id ∈ ids) (read : n'.clause id = .ok c') :
    n'.Undecided id ∧ ∃ c rest, n.clause id = .ok c ∧ c' = { c with rest } ∧
      c'.lits.Perm (c.lits.filter fun l => n.trail.litValue l ≠ .ok .fails) := by
  obtain ⟨c, before, swept⟩ := a.swept id inside
  rw [read] at swept
  cases swept with
  | cut perm unknown =>
      exact ⟨⟨_, read, fun l hl => (a.trail.litValue l).trans (unknown l hl)⟩,
        c, _, before, rfl, perm⟩

/-- What is stored afterwards was stored before. -/
theorem stored (a : Sweeps ids n n') (read : n'.clause id = .ok c') :
    ∃ c, n.clause id = .ok c := by
  by_cases inside : id ∈ ids
  · obtain ⟨-, c, -, before, -⟩ := a.survivor inside read
    exact ⟨c, before⟩
  · exact ⟨c', (a.others id inside).symm.trans read⟩

/-- A clause that is gone had a true literal. -/
theorem lost (a : Sweeps ids n n') (read : n.clause id = .ok c)
    (gone : ∀ c', n'.clause id ≠ .ok c') :
    ∃ l ∈ c.lits, n.trail.litValue l = .ok .holds := by
  have inside : id ∈ ids := by
    by_contra out
    exact gone c ((a.others id out).trans read)
  obtain ⟨d, before, swept⟩ := a.swept id inside
  cases read.symm.trans before
  cases swept' : n'.clause id with
  | ok c' => exact absurd swept' (gone c')
  | error f =>
      rw [swept'] at swept
      cases swept with
      | gone inside holds => exact ⟨_, inside, holds⟩

end Sweeps

/-- The clauses are in the same rows, and have their literals in some order. -/
structure Permutes (n n' : Network) : Prop where
  row : n'.row = n.row
  lits : ∀ id ∈ n.ids, ∃ c c', n.clause id = .ok c ∧ n'.clause id = .ok c' ∧ c'.lits.Perm c.lits

/-- A propagation exchanges literals in clauses, and nothing else of them. -/
theorem propagate_permutes {conflict : Option ClauseId} {count : Nat} (core : n.Core)
    (d : n.view.Sturdy) (h : n.propagate = .ok (n', conflict, count)) : n.Permutes n' := by
  obtain ⟨chain, row, -⟩ := propagate_chain core h
  have x' := (View.Chain.sturdy chain core d).indexed
  have ids : n'.ids = n.ids := congrArg₂ (· ++ ·) (congrFun row false) (congrFun row true)
  refine ⟨row, fun id inside => ?_⟩
  obtain ⟨c', read'⟩ := (mem_ids_iff x').mp (ids ▸ inside)
  obtain ⟨b, stored, perm⟩ :=
    (propagate_inferred d.indexed core h).clauses (Arena.body?_of_get read')
  obtain ⟨c, read, rfl⟩ := exists_clause stored
  exact ⟨c, c', read, read', perm⟩

/-- Compacting the arena afterwards makes no difference. -/
theorem Twin.sweeps (t : n'.Twin n'') (a : Sweeps ids n n') : Sweeps ids n n'' :=
  a.same (t.trail ▸ .refl _) fun _ => t.clause

end Network

namespace Solver

open Network (Regime)

variable {g : Regime} {s s' s₀ s₁ : Solver} {options : Options} {calls : List Call}

/-! ## A simplification -/

/-- A simplification is due: at the root level, a propagation that finds no clause false
leads to the other state, where there are new facts and enough propagations have been
made. -/
structure Due (s s₁ : Solver) : Prop where
  root : s.level = 0
  ok : s.ok = true
  propagated : s.propagateAll = .ok (s₁, none)
  news : s₁.schedule.assigned ≠ s₁.net.trail.size
  time : s₁.schedule.propagations ≤ 0

/-- A simplification that is due is carried out. -/
theorem Due.simplifyRoot_eq (d : s.Due s₁) :
    s.simplifyRoot = s₁.simplifyNow >>= fun s₂ => .ok (s₂, true) := by
  have time : ¬0 < s₁.schedule.propagations := Int.not_lt.mpr d.time
  simp [simplifyRoot, d.root, d.ok, d.propagated, d.news, time, ensure, Bind.bind, Except.bind,
    Pure.pure, Except.pure]

/-- A simplification that reports anything was due. -/
theorem due_of_reports {b : Bool} (h : s.simplifyRoot = .ok (s', b))
    (told : s'.net.journal.events ≠ s.net.journal.events) :
    ∃ s₁, s.Due s₁ ∧ s₁.simplifyNow = .ok s' := by
  obtain ⟨_, root, h⟩ := bind_eq_ok.mp h
  split at h
  next =>
    cases h
    exact absurd rfl told
  next ok =>
    obtain ⟨⟨s₁, conflict⟩, propagated, h⟩ := bind_eq_ok.mp h
    obtain ⟨_, propagates, -⟩ := propagateAll_eq_ok propagated
    have silent := (Network.drifts_drain propagates).silent.events
    cases conflict with
    | some id =>
        cases h
        exact absurd silent told
    | none =>
        simp only at h
        split at h
        next =>
          cases h
          exact absurd silent told
        next due =>
          obtain ⟨s₂, simplified, h⟩ := bind_eq_ok.mp h
          cases h
          simp only [Bool.or_eq_true, decide_eq_true_eq, not_or, Int.not_lt] at due
          obtain ⟨news, time⟩ := due
          refine ⟨s₁, ⟨?_, by simpa using ok, propagated, news, time⟩, simplified⟩
          simpa using ensure_eq_ok.mp root

/-- Nothing is left to simplify in the other state.  Its swept clauses have no literal with a
value, and are the old ones without the false literals; those that are gone were satisfied;
and the heap holds what may be decided, and nothing else. -/
structure Simplified (s s' : Solver) : Prop where
  level : s'.level = 0
  values : ∀ l, s'.litValue l = s.litValue l
  learnts : ∀ id ∈ s'.net.db.learnts, s'.net.Undecided id
  problem : s.options.removeSatisfied = true → ∀ id ∈ s'.net.db.problem, s'.net.Undecided id
  kept : ∀ id ∈ s'.net.ids, id ∈ s.net.ids ∧ ∃ c rest, s.net.clause id = .ok c ∧
    s'.net.clause id = .ok { c with rest } ∧
    (c.learnt = true ∨ s.options.removeSatisfied = true →
      ({ c with rest } : Clause).lits.Perm (c.lits.filter fun l => s.litValue l ≠ .ok .fails)) ∧
    (c.learnt = false → s.options.removeSatisfied = false → rest = c.rest)
  gone : ∀ id ∈ s.net.ids, id ∉ s'.net.ids → ∃ c, s.net.clause id = .ok c ∧
    ∃ l ∈ c.lits, s.litValue l = .ok .holds
  heap : ∀ v, v ∈ s'.order.heap.keys.toList ↔
    s'.order.eligible.get v = .ok true ∧ s'.value v = .ok .unknown
  once : s'.order.heap.keys.toList.Nodup

/-- A simplification sweeps the clauses and refills the heap. -/
theorem simplifyNow_sweeps (i : s.Inv g none none) (d : s.net.view.Sturdy)
    (root : s.level = 0) (h : s.simplifyNow = .ok s') :
    Network.Sweeps (s.net.sweptIds s.options.removeSatisfied) s.net s'.net ∧
      s'.order.heap.Holds
        fun v => s'.order.eligible.get v = .ok true ∧ s'.value v = .ok .unknown := by
  obtain ⟨n, s₁, order, schedule, sweeping, collected, rebuilt, rfl⟩ := simplifyNow_eq_ok h
  have chain := Network.sweepAll_chain i.core root sweeping
  have whole := (View.Chain.core chain i.core).whole (View.Chain.sturdy chain i.core d)
  have r := Network.reduces_sweepAll i.net.wf root sweeping
  obtain ⟨i₁, -⟩ := (i.reduced r).checkGarbage collected
  obtain ⟨same, holds⟩ := Order.holds_rebuild i₁.covers rebuilt
  obtain ⟨m, twin, rfl⟩ := twin_checkGarbage whole collected
  have swept := twin.sweeps (Network.sweepAll_sweeps i.core d.indexed root sweeping)
  rw [← same] at holds
  exact ⟨swept.same (.refl _) fun _ => rfl, holds⟩

/-- Nothing is left to simplify after a simplification. -/
theorem simplifyNow_simplified (i : s.Inv g none none) (d : s.net.view.Sturdy)
    (root : s.level = 0) (d' : s'.net.view.Sturdy) (h : s.simplifyNow = .ok s') :
    s.Simplified s' := by
  obtain ⟨sweeps, holds⟩ := simplifyNow_sweeps i d root h
  have x := d.indexed
  have x' := d'.indexed
  have swept : ∀ {id c'}, s'.net.clause id = .ok c' →
      c'.learnt = true ∨ s.options.removeSatisfied = true →
      id ∈ s.net.sweptIds s.options.removeSatisfied := by
    intro id c' read' kind
    by_contra out
    have read := (sweeps.others id out).symm.trans read'
    exact out ((Network.mem_sweptIds x read).mpr kind)
  have clean : ∀ {id c'}, s'.net.clause id = .ok c' →
      c'.learnt = true ∨ s.options.removeSatisfied = true → s'.net.Undecided id :=
    fun read' kind => (sweeps.survivor (swept read' kind) read').1
  refine ⟨sweeps.trail.level.trans root, sweeps.trail.litValue, fun id inside => ?_,
    fun removes id inside => ?_, fun id inside => ?_, fun id inside out => ?_,
    fun v => holds.mem_keys, holds.nodup⟩
  · obtain ⟨c', read', learnt⟩ := (Network.mem_row x' true).mp (Array.mem_toList_iff.mpr inside)
    exact clean read' (.inl learnt)
  · obtain ⟨c', read', -⟩ := (Network.mem_row x' false).mp (Array.mem_toList_iff.mpr inside)
    exact clean read' (.inr removes)
  · obtain ⟨c', read'⟩ := (Network.mem_ids_iff x').mp inside
    refine ⟨(Network.mem_ids_iff x).mpr (sweeps.stored read'), ?_⟩
    by_cases listed : id ∈ s.net.sweptIds s.options.removeSatisfied
    · obtain ⟨-, c, rest, read, rfl, perm⟩ := sweeps.survivor listed read'
      refine ⟨c, rest, read, read', fun _ => perm, fun problem keeps => ?_⟩
      rcases (Network.mem_sweptIds x read).mp listed with learnt | removes
      · exact absurd (problem.symm.trans learnt) nofun
      · exact absurd (keeps.symm.trans removes) nofun
    · have read := (sweeps.others id listed).symm.trans read'
      exact ⟨c', c'.rest, read, read', fun kind => absurd (swept read' kind) listed,
        fun _ _ => rfl⟩
  · obtain ⟨c, read⟩ := (Network.mem_ids_iff x).mp inside
    have gone : ∀ c', s'.net.clause id ≠ .ok c' := fun c' read' =>
      out ((Network.mem_ids_iff x').mpr ⟨c', read'⟩)
    exact ⟨c, read, sweeps.lost read gone⟩

/-- The search begun in the state, or a call in it, comes to the other state as it is about to
simplify. -/
inductive Simplifying (s : Solver) : Solver → Prop
  | called : Simplifying s s
  | searching {s₀ : Solver} : s.MaySimplify s₀ → Simplifying s s₀

/-- What a simplification comes to that is due. -/
theorem Due.simplified (due : s.Due s₁) (paced : g.paced) (i : s.Inv g none none) (x : s.Sane) :
    s.net.Permutes s₁.net ∧ (∀ f, s₁.simplifyNow = .error f → f.Excused) ∧
      ∀ s₂, s₁.simplifyNow = .ok s₂ → s₁.Simplified s₂ := by
  obtain ⟨advance, i₁⟩ := i.propagateAll due.propagated
  obtain ⟨_, propagated, -⟩ := propagateAll_eq_ok due.propagated
  have x₁ := x.moves i.core (propagateAll_moves i.core due.propagated)
  have root : s₁.level = 0 := advance.level.trans due.root
  have ok : s₁.ok = true := by
    rw [advance.rest]
    exact due.ok
  have watchful : s₁.net.Watchful := i₁.watchful paced ok advance.quiet
  have sane := simplifyNow_sane (fun _ => id) i₁ x₁ root watchful
  exact ⟨Network.propagate_permutes i.core x.sturdy propagated, sane.failsOnly, fun s₂ h =>
    simplifyNow_simplified i₁ x₁.sturdy root (sane.holds s₂ h).sturdy h⟩

/-- Every simplification in a run that reports anything was due, and every one that is due
leaves nothing to simplify.  The propagation with which it begins only changes the order of
literals.  If it fails, then because of an activity that is not a number or of a size beyond
its width. -/
theorem Reaches.simplifies_completely (run : Reaches options BeginsQuietly calls s)
    (at_ : s.Simplifying s₀) :
    (∀ s₂ b, s₀.simplifyRoot = .ok (s₂, b) →
        s₂.net.journal.events ≠ s₀.net.journal.events →
        ∃ s₁, s₀.Due s₁ ∧ s₁.simplifyNow = .ok s₂) ∧
      ∀ s₁, s₀.Due s₁ →
        s₀.simplifyRoot = (s₁.simplifyNow >>= fun s₂ => .ok (s₂, true)) ∧
        s₀.net.Permutes s₁.net ∧ (∀ f, s₁.simplifyNow = .error f → f.Excused) ∧
        ∀ s₂, s₁.simplifyNow = .ok s₂ → s₁.Simplified s₂ := by
  refine ⟨fun s₂ b => due_of_reports, fun s₁ due => ⟨due.simplifyRoot_eq, ?_⟩⟩
  have ready := run.visited
  cases at_ with
  | called => exact due.simplified trivial (ready.idle due.root ▸ ready.inv) run.sane
  | searching may =>
      obtain ⟨running, -⟩ := may.running ready fun _ => trivial
      have moves := may.moves ready fun _ => trivial
      exact due.simplified trivial running.inv (run.sane.moves ready.inv.core moves)

/-- Simplifies, provided that it is due.  Answers with the states before and after. -/
def simplifyDue (s : Solver) : Except Fault (Solver × Solver) := do
  ensure (s.level = 0)
  ensure s.ok
  match ← s.propagateAll with
  | (_, some _) => throw .conditionBroken
  | (s₁, none) =>
      ensure (s₁.schedule.assigned ≠ s₁.net.trail.size)
      ensure (s₁.schedule.propagations ≤ 0)
      return (s₁, ← s₁.simplifyNow)

/-- What has been simplified on trial was due. -/
theorem due_of_simplifyDue {s₂ : Solver} (h : s.simplifyDue = .ok (s₁, s₂)) :
    s.Due s₁ ∧ s₁.simplifyNow = .ok s₂ := by
  obtain ⟨_, root, h⟩ := bind_eq_ok.mp h
  obtain ⟨_, ok, h⟩ := bind_eq_ok.mp h
  obtain ⟨⟨s₃, conflict⟩, propagated, h⟩ := bind_eq_ok.mp h
  cases conflict with
  | some id => cases h
  | none =>
      obtain ⟨_, news, h⟩ := bind_eq_ok.mp h
      obtain ⟨_, time, h⟩ := bind_eq_ok.mp h
      obtain ⟨s₄, simplified, h⟩ := bind_eq_ok.mp h
      cases h
      refine ⟨⟨?_, ensure_eq_ok.mp ok, propagated, ?_, ?_⟩, simplified⟩
      · simpa using ensure_eq_ok.mp root
      · simpa using ensure_eq_ok.mp news
      · simpa using ensure_eq_ok.mp time

/-- A conflict teaches a fact, which is not propagated before the solver simplifies. -/
def learntFact : List Call :=
  [.newVar {}, .newVar {}, .newVar {}, .newVar {}, .addClause [⟨⟨0⟩, false⟩, ⟨⟨1⟩, true⟩],
    .addClause [⟨⟨0⟩, false⟩, ⟨⟨1⟩, false⟩], .addClause [⟨⟨0⟩, true⟩, ⟨⟨2⟩, true⟩, ⟨⟨3⟩, true⟩],
    .decide ⟨⟨0⟩, true⟩, .propagate, .resolveConflict]

/-- The fact satisfies two clauses, and makes a literal of the third one false. -/
theorem fact_swept : ∃ s s₁ s₂, Reaches {} BeginsQuietly learntFact s ∧ s.Simplifying s ∧
    s.Due s₁ ∧ s₁.simplifyNow = .ok s₂ ∧ s₁.net.ids = [⟨0⟩, ⟨1⟩, ⟨2⟩] ∧ s₂.net.ids = [⟨2⟩] ∧
    s₁.Simplified s₂ := by
  have found : ∃ s ∈ (create {} false none).toOption,
      ∃ s' ∈ s.playAll BeginsQuietly learntFact, ∃ r ∈ s'.simplifyDue.toOption,
        r.1.net.ids = [⟨0⟩, ⟨1⟩, ⟨2⟩] ∧ r.2.net.ids = [⟨2⟩] := by
    decide +kernel
  obtain ⟨s, run, ⟨s₁, s₂⟩, made, before, after⟩ := exists_played found
  obtain ⟨due, swept⟩ := due_of_simplifyDue (eq_ok_of_toOption made)
  obtain ⟨-, -, -, simplified⟩ := (run.simplifies_completely .called).2 s₁ due
  exact ⟨s, s₁, s₂, run, .called, due, swept, before, after, simplified s₂ swept⟩

/-- The last literal of a clause becomes false. -/
def lastFails : List Call :=
  [.newVar {}, .newVar {}, .newVar {}, .newVar {},
    .addClause [⟨⟨0⟩, true⟩, ⟨⟨1⟩, true⟩, ⟨⟨2⟩, true⟩, ⟨⟨3⟩, true⟩], .addClause [⟨⟨3⟩, false⟩]]

/-- Where satisfied problem clauses are not removed, problem clauses keep their false
literals. -/
theorem last_literal_kept : ∃ s s₁ s₂ c',
    Reaches { removeSatisfied := false } BeginsQuietly lastFails s ∧ s.Simplifying s ∧
      s.Due s₁ ∧ s₁.simplifyNow = .ok s₂ ∧ ⟨0⟩ ∈ s₁.net.ids ∧ ⟨0⟩ ∈ s₂.net.ids ∧
      s₂.net.clause ⟨0⟩ = .ok c' ∧ ¬∃ c, s₁.net.clause ⟨0⟩ = .ok c ∧
        c'.lits.Perm (c.lits.filter fun l => s₁.litValue l ≠ .ok .fails) := by
  have found : ∃ s ∈ (create { removeSatisfied := false } false none).toOption,
      ∃ s' ∈ s.playAll BeginsQuietly lastFails, ∃ r ∈ s'.simplifyDue.toOption,
        (⟨0⟩ ∈ r.1.net.ids ∧ ⟨0⟩ ∈ r.2.net.ids) ∧ r.1.litValue ⟨⟨3⟩, true⟩ = .ok .fails ∧
          (r.2.net.clause ⟨0⟩).toOption.map Clause.lits =
            some [⟨⟨0⟩, true⟩, ⟨⟨1⟩, true⟩, ⟨⟨2⟩, true⟩, ⟨⟨3⟩, true⟩] := by
    decide +kernel
  obtain ⟨s, run, ⟨s₁, s₂⟩, made, ⟨before, after⟩, fails, lits⟩ := exists_played found
  obtain ⟨c', read', lits⟩ := Option.map_eq_some_iff.mp lits
  obtain ⟨due, swept⟩ := due_of_simplifyDue (eq_ok_of_toOption made)
  refine ⟨s, s₁, s₂, c', run, .called, due, swept, before, after, eq_ok_of_toOption read',
    fun ⟨c, _, perm⟩ => ?_⟩
  have inside : ⟨⟨3⟩, true⟩ ∈ c'.lits := by simp [lits]
  have left := (List.mem_filter.mp (perm.mem_iff.mp inside)).2
  simp [fails] at left

end Solver

end Cdcl
