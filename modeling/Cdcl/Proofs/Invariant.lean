import Cdcl.Solver.Backtrack
import Cdcl.Proofs.Order
import Cdcl.Proofs.Propagating

/-!
# The invariant of the solver

`Solver.Inv` is what every operation of the solver keeps: the conditions that the regime
puts on the network, a pending conflict that is one, a heap that covers what may be
decided, and, if the clauses are known to be unsatisfiable, that they are.

* `Kin` — solvers that differ in bookkeeping only;
* `Back` — going back to a level, `cancelUntil_cases`;
* `Inv.propagateAll`, `Inv.pushLevel`, `Inv.decide` — the operations on levels.
-/

namespace Cdcl

open Network (Regime)

/-- The regime of a solver: once the clauses are known to be unsatisfiable, they need not
be visited in time any more. -/
def Network.Regime.during (g : Regime) (ok : Bool) : Regime :=
  { g with paced := g.paced ∧ ok = true }

/-- The regime for a formula with more clauses. -/
def Network.Regime.more (g : Regime) (f : List (List Lit)) : Regime :=
  { g with formula := g.formula ++ f, stored := g.stored ++ f }

@[simp] theorem Network.Regime.more_nil (g : Regime) : g.more [] = g := by
  simp [Network.Regime.more]

theorem Network.Regime.more_append (g : Regime) (f f' : List (List Lit)) :
    g.more (f ++ f') = (g.more f).more f' := by
  simp [Network.Regime.more]

namespace Solver

variable {g g' : Regime} {conflict : Option ClauseId} {missing : Option Var}
  {s s' s'' : Solver} {k : Nat}

/-- The invariant, with a clause that is known to be false, if any, and a variable that
the heap may be missing, if any. -/
structure Inv (g : Regime) (conflict : Option ClauseId) (missing : Option Var)
    (s : Solver) : Prop where
  net : s.net.Fits (g.during s.ok) s.net.Lists (fun _ _ => conflict.isSome = true)
  refutes : s.net.Refutes conflict
  covers : s.order.Covers s.net.trail missing
  refuted : g.sound → s.ok = false → Unsatisfiable g.formula

/-- The solvers differ in bookkeeping only. -/
structure Kin (s s' : Solver) : Prop where
  net : s.net.Alike s'.net
  covers : ∀ {t m}, s.order.Covers t m → s'.order.Covers t m
  ok : s'.ok = s.ok
  pending : s'.pending = s.pending

namespace Kin

theorem refl (s : Solver) : s.Kin s := ⟨.refl _, id, rfl, rfl⟩

theorem trans (a : s.Kin s') (b : s'.Kin s'') : s.Kin s'' where
  net := a.net.trans b.net
  covers c := b.covers (a.covers c)
  ok := b.ok.trans a.ok
  pending := b.pending.trans a.pending

theorem level (a : s.Kin s') : s'.level = s.level := by
  unfold Solver.level
  rw [a.net.trail]

/-- Bookkeeping keeps the invariant. -/
theorem inv (a : s.Kin s') (i : s.Inv g conflict missing) : s'.Inv g conflict missing where
  net := by
    rw [a.ok, a.net.lists_eq]
    exact a.net.fits i.net
  refutes same := by
    obtain ⟨c, stored, false_⟩ := i.refutes same
    exact ⟨c, (a.net.body _).trans stored, a.net.trail.symm ▸ false_⟩
  covers := by
    rw [a.net.trail]
    exact a.covers i.covers
  refuted on no := i.refuted on (a.ok ▸ no)

end Kin

theorem kin_log {m : Message} (quiet : m.lesson? = none) (s : Solver) : s.Kin (s.log m) :=
  ⟨Network.alike_log quiet, id, rfl, rfl⟩

theorem kin_report (e : Event) (s : Solver) : s.Kin (s.report e) :=
  ⟨Network.alike_report _ e, id, rfl, rfl⟩

/-- A change of what the invariant does not look at. -/
theorem kin_of_eq (net : s'.net = s.net) (order : s'.order = s.order) (ok : s'.ok = s.ok)
    (pending : s'.pending = s.pending) : s.Kin s' :=
  ⟨net ▸ .refl _, fun c => order ▸ c, ok, pending⟩

/-- Nothing is due when no clause is known to be false. -/
theorem Inv.idle (i : s.Inv g none missing) :
    s.net.Fits (g.during s.ok) s.net.Lists Network.noneDue :=
  i.net.weaken fun due => absurd due (by simp)

/-- The invariant without the conditions on when clauses are visited. -/
theorem Inv.unpaced (i : s.Inv g conflict missing) :
    s.Inv { g with paced := False } conflict missing where
  net := i.net.regime (fun on => ⟨on, fun _ h => h⟩) fun on => on.1.elim
  refutes := i.refutes
  covers := i.covers
  refuted := i.refuted

/-- Nothing more is asked of a solver that has failed. -/
theorem Inv.paced (i : s.Inv { g with paced := False } conflict missing)
    (failed : s.ok = false) : s.Inv g conflict missing where
  net := i.net.regime (fun on => ⟨on, fun _ h => h⟩) fun on =>
    absurd (failed.symm.trans on.2) (by simp)
  refutes := i.refutes
  covers := i.covers
  refuted := i.refuted

/-- Only the levels below the current one matter. -/
theorem Inv.resettle {settled : Nat → Prop} (i : s.Inv g conflict missing)
    (below : ∀ k, k < s.level → settled k → g.settled k) :
    s.Inv { g with settled } conflict missing where
  net := i.net.regime (fun on => ⟨on, fun _ h => h⟩) fun on => ⟨on, rfl, below⟩
  refutes := i.refutes
  covers := i.covers
  refuted := i.refuted

/-- At the root level there is no level to be settled. -/
theorem Inv.resettleRoot (i : s.Inv g conflict missing) (root : s.level = 0)
    (settled : Nat → Prop) : s.Inv { g with settled } conflict missing :=
  i.resettle fun k low => absurd low (root ▸ Nat.not_lt_zero k)

/-- A formula from which more follows. -/
theorem Inv.formula {f : List (List Lit)} (i : s.Inv g conflict missing)
    (more : ∀ c, Entails g.formula c → Entails f c) :
    s.Inv { g with formula := f } conflict missing where
  net := i.net.regime (fun on => ⟨on, more⟩) fun on => ⟨on, rfl, fun _ _ left => left⟩
  refutes := i.refutes
  covers := i.covers
  refuted on no :=
    unsatisfiable_iff_entails_nil.mpr (more _ (unsatisfiable_iff_entails_nil.mp (i.refuted on no)))

/-- One more clause has been stored. -/
theorem Inv.represented {d : List Lit} (i : s.Inv g conflict missing)
    (new : s.ok = true → s.net.Represented d) :
    s.Inv { g with stored := g.stored ++ [d] } conflict missing where
  net := { i.net with
    represents := fun on => Network.Represents.append (i.net.represents on) (new on.2) }
  refutes := i.refutes
  covers := i.covers
  refuted := i.refuted

/-- A message that only tells of clauses that follow. -/
theorem Inv.log {m : Message} (i : s.Inv g conflict missing)
    (told : ∀ c, m.lesson? = some c → g.sound → Entails g.formula c) :
    (s.log m).Inv g conflict missing where
  net := i.net.log told
  refutes := i.refutes
  covers := i.covers
  refuted := i.refuted

/-- The clauses are found unsatisfiable. -/
theorem Inv.fail {conflict' : Option ClauseId} (i : s.Inv g conflict missing)
    (refuted : g.sound → Unsatisfiable g.formula)
    (less : conflict' = none ∨ conflict' = conflict) :
    { s with ok := false }.Inv g conflict' missing where
  net := by
    have idle : ¬(g.during false).paced := fun on => absurd on.2 (by simp)
    exact ⟨i.net.wf, i.net.sound, fun on => absurd on idle, fun on => absurd on idle,
      fun on => absurd on idle⟩
  refutes same := by
    rcases less with rfl | rfl
    · cases same
    · exact i.refutes same
  covers := i.covers
  refuted on _ := refuted on

/-! ## Going back -/

/-- By induction over their number, literals are taken off and given back to the heap. -/
theorem undo_undone {mode : PhaseSaving} {last n : Nat} {t₀ t t' : Trail} {o o' : Order}
    (w : t₀.WF) (u : t₀.Undone k t) (c : o.Covers t none)
    (h : undo mode last n t o = .ok (t', o')) :
    t₀.Undone (k + n) t' ∧ o'.Covers t' none ∧ o'.eligible = o.eligible := by
  induction n generalizing t o k with
  | zero =>
      cases h
      exact ⟨u, c, rfl⟩
  | succ n ih =>
      obtain ⟨⟨t₁, p⟩, popped, h⟩ := bind_eq_ok.mp h
      obtain ⟨o₁, released, h⟩ := bind_eq_ok.mp h
      have covers : o.Covers t₁ (some p.var) := by
        obtain ⟨-, values, written, rfl⟩ := Trail.pop_eq_ok.mp popped
        refine c.weaken.anti (DenseMap.size_set written) fun {v} other unknown => ?_
        have ne : v ≠ p.var := fun same => other (congrArg some same.symm)
        change values.get v = _ at unknown
        rwa [DenseMap.get_set written, if_neg ne] at unknown
      obtain ⟨undone, covers', eligible⟩ :=
        ih (u.pop w popped) (Order.covers_release covers released) h
      rw [Nat.add_right_comm] at undone
      exact ⟨undone, covers', eligible.trans (Order.eligible_release released)⟩

/-- Going back to the end of level `k`, which drops a pending conflict. -/
structure Back (s : Solver) (k : Nat) (s' : Solver) : Prop where
  net : s.net.BackedTo k s'.net
  covers : s'.order.Covers s'.net.trail none
  eligible : s'.order.eligible = s.order.eligible
  ok : s'.ok = s.ok
  pending : s'.pending = none
  model : s'.model = s.model

theorem Back.level (b : s.Back k s') : s'.level = k := b.net.trail.level

/-- Either there is nothing to undo, or literals are taken off down to the end of level `k`. -/
theorem undo_of_cancelUntil (h : s.cancelUntil k = .ok s') :
    (s.level ≤ k ∧ s' = s) ∨
      (k < s.level ∧ ∃ last n t order, s.net.trail.lits.size = s.net.trail.cut k + n ∧
        undo s.options.phaseSaving last n s.net.trail s.order = .ok (t, order) ∧
        s' = { s with
          net := { s.net with
            trail := { t with marks := t.marks.shrink k, head := s.net.trail.cut k }
            journal := s.net.journal.log (.cancelUntil k) }
          order
          pending := none }) := by
  unfold cancelUntil at h
  split at h
  next below =>
    obtain ⟨s₁, done, h⟩ := bind_eq_ok.mp h
    cases h
    obtain ⟨cut, ends, done⟩ := bind_eq_ok.mp done
    obtain ⟨last, -, done⟩ := bind_eq_ok.mp done
    obtain ⟨n, counted, done⟩ := bind_eq_ok.mp done
    obtain ⟨⟨t, order⟩, undone, done⟩ := bind_eq_ok.mp done
    cases done
    obtain ⟨-, rfl⟩ := Trail.levelEnd_eq_ok.mp ends
    exact .inr ⟨below, last, n, t, order, checkedSub_eq_ok.mp counted, undone, rfl⟩
  next high =>
    cases h
    exact .inl ⟨Nat.le_of_not_lt high, rfl⟩

/-- Either there is nothing to undo, or the levels above `k` are undone. -/
theorem cancelUntil_cases (w : s.net.trail.WF) (c : s.order.Covers s.net.trail none)
    (h : s.cancelUntil k = .ok s') :
    (s.level ≤ k ∧ s' = s) ∨ (k < s.level ∧ s.Back k s') := by
  rcases undo_of_cancelUntil h with same | ⟨below, last, n, t, order, sum, undone, rfl⟩
  · exact .inl same
  · have count : n = s.net.trail.lits.size - s.net.trail.cut k := by omega
    obtain ⟨shorter, covers, eligible⟩ := undo_undone w (Trail.Undone.refl w) c undone
    rw [Nat.zero_add, count] at shorter
    refine .inr ⟨below, ⟨?_, covers.anti rfl fun _ => id, eligible, rfl, rfl, rfl⟩⟩
    exact ⟨shorter.cutBack w below, rfl, rfl, Journal.lessons_log_quiet rfl⟩

/-- Going back to a settled level keeps the invariant and leaves nothing to propagate. -/
theorem Back.inv (b : s.Back k s') (i : s.Inv g conflict none)
    (settled : (g.during s.ok).paced → g.settled k) : s'.Inv g none none where
  net := by
    rw [b.ok, b.net.lists_eq]
    refine ⟨b.net.wf i.net.wf, fun on => b.net.sound i.net.wf (i.net.sound on),
      fun on => b.net.closed i.net.wf.trail (i.net.closed on), fun on => ?_,
      fun on => b.net.represents i.net.wf.trail (i.net.represents on)⟩
    intro id c x stored watched false_
    have passed := b.net.processed (i.net.closed on) (settled on) stored watched false_
    exact .inr (passed.resolve_left False.elim)
  refutes same := by cases same
  covers := b.covers
  refuted on no := i.refuted on (b.ok ▸ no)

/-- Going back to a settled level, if it is below the current one, keeps the invariant. -/
theorem Inv.cancelUntil (i : s.Inv g conflict none)
    (settled : (g.during s.ok).paced → k < s.level → g.settled k)
    (h : s.cancelUntil k = .ok s') :
    (s.level ≤ k ∧ s' = s) ∨ (k < s.level ∧ s.Back k s' ∧ s'.Inv g none none) := by
  rcases cancelUntil_cases i.net.wf.trail i.covers h with same | ⟨below, b⟩
  · exact .inl same
  · exact .inr ⟨below, b, b.inv i fun on => settled on below⟩

/-- The level is no higher, and a pending conflict is dropped unless the level stays. -/
structure Descends (s s' : Solver) : Prop where
  level : s'.level ≤ s.level
  pending : s'.pending = none ∨ (s'.pending = s.pending ∧ s'.level = s.level)

namespace Descends

theorem of_eq (level : s'.level = s.level) (pending : s'.pending = s.pending) :
    s.Descends s' := ⟨Nat.le_of_eq level, .inr ⟨pending, level⟩⟩

/-- Going down twice is going down. -/
theorem trans (h : s.Descends s') (h' : s'.Descends s'') : s.Descends s'' where
  level := Nat.le_trans h'.level h.level
  pending := by
    rcases h'.pending with none | ⟨same', level'⟩
    · exact .inl none
    · rcases h.pending with none | ⟨same, level⟩
      · exact .inl (same'.trans none)
      · exact .inr ⟨same'.trans same, level'.trans level⟩

/-- If conflicts are pending above the root level only, that stays so. -/
theorem idle (h : s.Descends s') (idle : s.level = 0 → s.pending = none)
    (root : s'.level = 0) : s'.pending = none := by
  rcases h.pending with none | ⟨same, level⟩
  · exact none
  · exact same.trans (idle (level.symm.trans root))

end Descends

theorem Kin.descends (k : s.Kin s') : s.Descends s' := .of_eq k.level k.pending

/-- What going back to level `k`, if that is below, comes to. -/
structure Retreats (g : Regime) (s : Solver) (k : Nat) (s' : Solver) : Prop where
  inv : s'.Inv g s'.pending none
  level : s'.level = min k s.level
  descends : s.Descends s'
  mem : ∀ {l}, l ∈ s'.net.trail.lits ↔ l ∈ s.net.trail.upTo k
  upTo : ∀ j, j ≤ k → s'.net.trail.upTo j = s.net.trail.upTo j
  ok : s'.ok = s.ok
  eligible : s'.order.eligible = s.order.eligible
  model : s'.model = s.model

/-- Going back leaves what was assigned up to the level. -/
theorem Inv.retreats (i : s.Inv g s.pending none)
    (settled : (g.during s.ok).paced → s'.level < s.level → g.settled s'.level)
    (h : s.cancelUntil k = .ok s') : Retreats g s k s' := by
  have w := i.net.wf.trail
  rcases cancelUntil_cases w i.covers h with ⟨high, rfl⟩ | ⟨below, b⟩
  · refine ⟨i, (Nat.min_eq_right high).symm, .of_eq rfl rfl, ?_, fun _ _ => rfl, rfl, rfl, rfl⟩
    rw [Trail.upTo_of_le high]
    exact Array.mem_toList_iff.symm
  · have settled : (g.during s.ok).paced → g.settled k := fun on =>
      b.level ▸ settled on (b.level ▸ below)
    have lower : s'.level ≤ s.level := b.level ▸ Nat.le_of_lt below
    refine ⟨b.pending ▸ b.inv i settled, ?_, ⟨lower, .inl b.pending⟩, b.net.trail.mem_iff, ?_,
      b.ok, b.eligible, b.model⟩
    · rw [b.level, Nat.min_eq_left (Nat.le_of_lt below)]
    · intro j low
      rw [b.net.trail.upTo w, Nat.min_eq_left low]

/-! ## Propagating -/

/-- A propagation changes the network, and counts. -/
theorem propagateAll_eq_ok (h : s.propagateAll = .ok (s', conflict)) :
    ∃ count, s.net.propagate = .ok (s'.net, conflict, count) ∧
      s' = { s with net := s'.net, stats := s'.stats, schedule := s'.schedule } := by
  obtain ⟨⟨net, conflict', count⟩, propagated, h⟩ := bind_eq_ok.mp h
  cases h
  exact ⟨count, propagated, rfl⟩

/-- What a propagation of the solver comes to. -/
structure Advance (s s' : Solver) : Prop where
  grows : s.net.trail.Grows s'.net.trail
  quiet : s'.net.trail.head = s'.net.trail.lits.size
  rest : s' = { s with net := s'.net, stats := s'.stats, schedule := s'.schedule }

theorem Advance.level (a : s.Advance s') : s'.level = s.level := a.grows.level

/-- A propagation keeps the invariant, with the clause that it finds false. -/
theorem Inv.propagateAll (i : s.Inv g none missing)
    (h : s.propagateAll = .ok (s', conflict)) :
    s.Advance s' ∧ s'.Inv g conflict missing := by
  obtain ⟨count, propagated, e⟩ := propagateAll_eq_ok h
  obtain ⟨done, quiet⟩ := Network.propagate_fits propagated i.idle
  have ok : s'.ok = s.ok := by rw [e]
  have order : s'.order = s.order := by rw [e]
  refine ⟨⟨done.grows, quiet, e⟩, ?_, done.refutes, ?_, fun on no => ?_⟩
  · rw [ok]
    exact done.fits
  · rw [order]
    exact i.covers.grows done.grows
  · exact i.refuted on (ok ▸ no)

/-- A clause that is false at the root level refutes the formula. -/
theorem Inv.unsatisfiable {id : ClauseId} (i : s.Inv g (some id) missing)
    (root : s.level = 0) (on : g.sound) : Unsatisfiable g.formula := by
  obtain ⟨c, stored, false_⟩ := i.refutes rfl
  have sound := i.net.sound on
  rw [unsatisfiable_iff_entails_nil]
  apply (sound.clauses stored).drop
  intro l hl
  refine .inr (sound.root ?_)
  have level : s.net.trail.level ≤ 0 := Nat.le_of_eq root
  rw [Trail.upTo_of_le level, Array.mem_toList_iff]
  exact false_ l hl

/-! ## Opening levels -/

/-- What is settled below a new level: what was settled, and the level that is left if
everything was propagated. -/
def Opens (s : Solver) (g g' : Regime) (conflict : Option ClauseId) : Prop :=
  g.paced → (∀ k, k < s.level → g'.settled k → g.settled k) ∧
    (g'.settled s.level → s.net.trail.head = s.net.trail.lits.size ∧ conflict = none)

/-- A level that is opened in quiet leaves a settled one behind. -/
theorem Inv.pushLevel {settled : Nat → Prop} (i : s.Inv g conflict missing)
    (opens : s.Opens g { g with settled } conflict) :
    s.pushLevel.Inv { g with settled } conflict missing := by
  have inv : Solver.Inv { g with settled } conflict missing
      { s with net := s.net.openLevel } := by
    refine ⟨⟨i.net.wf.openLevel, fun on => (i.net.sound on).openLevel, fun on => ?_,
      fun on => Network.Processed.openLevel (i.net.processed on),
      fun on => (i.net.represents on).openLevel⟩,
      ?_, ?_, i.refuted⟩
    · obtain ⟨below, here⟩ := opens on.1
      apply Network.closed_openLevel (i.net.closed on) below
      intro left
      obtain ⟨quiet, none⟩ := here left
      subst none
      refine ⟨quiet, fun stored watched false_ => ?_⟩
      have passed := i.net.processed on stored watched false_
      exact .inr (passed.resolve_left (by simp))
    · exact i.refutes
    · exact i.covers.anti rfl fun _ => id
  exact (kin_log rfl _).inv inv

/-- A network with more literals assigned and more clauses stored. -/
theorem Inv.grown {n : Network} (i : s.Inv g conflict missing)
    (grows : s.net.trail.Grows n.trail)
    (body : ∀ {id c}, s.net.body? id = some c → n.body? id = some c)
    (fits : n.Fits (g.during s.ok) n.Lists (fun _ _ => conflict.isSome = true)) :
    { s with net := n }.Inv g conflict missing where
  net := fits
  refutes same := by
    obtain ⟨c, stored, false_⟩ := i.refutes same
    exact ⟨c, body stored, fun l hl => grows.lits (false_ l hl)⟩
  covers := i.covers.grows grows
  refuted := i.refuted

/-- A literal that follows from the formula becomes a fact of the root level. -/
theorem Inv.enqueueFact {p : Lit} {why : Reason} {n : Network} (i : s.Inv g conflict missing)
    (root : s.level = 0) (fact : g.sound → Entails g.formula [p])
    (e : s.net.Enqueued p why n) :
    { s with net := n }.Inv g conflict missing ∧ n.trail.level = s.level := by
  have fits : n.Fits (g.during s.ok) n.Lists (fun _ _ => conflict.isSome = true) := by
    rw [e.lists_eq]
    refine e.fits i.net (fun above => ?_) (fun on _ => fact on) fun due _ => .inl due
    exact absurd root (Nat.ne_of_gt above)
  have inv := i.grown (Trail.grows_push e.trail) (fun stored => (e.body _).trans stored) fits
  exact ⟨inv, Trail.level_push e.trail⟩

/-- A clause is stored, and implies its first literal. -/
theorem Inv.storeImplying {id : ClauseId} {c : Clause} {n₁ n₂ n : Network}
    (i : s.Inv g conflict missing) (stores : s.net.Stores id c n₁) (alike : n₁.Alike n₂)
    (e : n₂.Enqueued c.first (Network.reasonFrom id c) n)
    (once : (c.lits.map Lit.var).Nodup) (entailed : g.sound → Entails g.formula c.lits)
    (false_ : g.sound → ∀ q ∈ c.premises, -q ∈ s.net.trail.lits)
    (known : ∀ q ∈ c.premises, ∃ m ∈ s.net.trail.lits, m.var = q.var)
    (late : (g.during s.ok).paced → ∀ k, k < s.level → g.settled k →
      -c.second ∉ s.net.trail.upTo k) :
    { s with net := n }.Inv g conflict missing ∧ n.trail.level = s.level := by
  have trail : n₂.trail = s.net.trail := alike.trail.trans stores.trail
  have fits : n.Fits (g.during s.ok) n.Lists (fun _ _ => conflict.isSome = true) :=
    stores.implies alike e i.net once entailed false_ known late
  have grows : s.net.trail.Grows n.trail := trail ▸ Trail.grows_push e.trail
  have body : ∀ {id c}, s.net.body? id = some c → n.body? id = some c := fun stored =>
    (e.body _).trans ((alike.body _).trans (stores.body_old stored))
  refine ⟨i.grown grows body fits, ?_⟩
  rw [Trail.level_push e.trail, trail]
  rfl

/-- Once the missing variable has a value, the heap covers all others. -/
theorem Inv.assigned {p : Lit} (i : s.Inv g conflict (some p.var))
    (true_ : p ∈ s.net.trail.lits) : s.Inv g conflict none where
  net := i.net
  refutes := i.refutes
  covers := by
    refine ⟨i.covers.heap, i.covers.size, fun {v} may unknown _ => ?_⟩
    refine i.covers.free may unknown fun same => ?_
    cases Option.some.inj same
    have known := i.net.wf.trail.held.mpr true_
    rw [unknown] at known
    exact Truth.ofBool_ne_unknown p.sign (Except.ok.inj known).symm
  refuted := i.refuted

/-- A decision, of which the heap may be missing the variable, keeps the invariant. -/
theorem Inv.decide {p : Lit} {settled : Nat → Prop} (i : s.Inv g conflict missing)
    (opens : s.Opens g { g with settled } conflict)
    (which : missing = none ∨ missing = some p.var) (h : s.decide p = .ok s') :
    s'.Inv { g with settled } conflict none ∧ s'.level = s.level + 1 ∧
      s'.pending = s.pending ∧ s'.ok = s.ok := by
  obtain ⟨_, -, h⟩ := bind_eq_ok.mp h
  obtain ⟨_, -, h⟩ := bind_eq_ok.mp h
  obtain ⟨n, assigned, rfl⟩ := updateNet_eq_ok.mp h
  have e := Network.enqueued assigned
  have counted : s.Kin { s with stats := { s.stats with decisions := s.stats.decisions + 1 } } :=
    kin_of_eq rfl rfl rfl rfl
  have opened := (kin_log (m := .decide p) rfl _).inv ((counted.inv i).pushLevel opens)
  have fits : n.Fits (Regime.during { g with settled } s.ok) n.Lists
      (fun _ _ => conflict.isSome = true) := by
    rw [e.lists_eq]
    refine e.fits opened.net ?_ ?_ fun due _ => .inl due
    · intro _ ne
      exact absurd rfl ne
    · intro _ root
      change s.net.trail.openLevel.level = 0 at root
      rw [Trail.level_openLevel] at root
      exact absurd root (Nat.succ_ne_zero _)
  have inv := opened.grown (Trail.grows_push e.trail) (fun stored => (e.body _).trans stored) fits
  have true_ : p ∈ n.trail.lits := (Trail.mem_push e.trail).mpr (.inr rfl)
  have level : n.trail.level = s.level + 1 := by
    rw [Trail.level_push e.trail]
    exact Trail.level_openLevel s.net.trail
  refine ⟨?_, level, rfl, rfl⟩
  rcases which with rfl | rfl
  · exact inv
  · exact inv.assigned true_

end Solver

end Cdcl
