import Cdcl.Proofs.Calls
import Cdcl.Proofs.Fitting
import Cdcl.Proofs.Marks
import Cdcl.Proofs.Observed
import Cdcl.Proofs.Upkeep

/-!
# What calls do to the network

Every operation of a solver takes its network through a chain of steps, keeps its maps
covering the variables and lets its counters grow.  `Moves` says all that, together with
the facts that clauses once known to be unsatisfiable stay so and that no mark is left
behind.  The steps of an analysis do mark variables; of them `Shifts` says the rest.

* `analyze_moves`, `learn_moves`, `solve_moves`, `addClause_moves`, `load_moves` — the
  operations;
* `perform_moves` — the calls;
* `Reaches.sane` — what every step keeps holds in every state that calls lead to.
-/

namespace Cdcl.Solver

open Network (Regime)
open View (Chain Sturdy)

variable {g : Regime} {s s' s'' : Solver} {k : Nat} {v : Var}

/-- Every map covers exactly the variables. -/
structure Fitted (s : Solver) : Prop where
  observed : s.net.observed.size = s.numVars
  info : s.info.size = s.numVars
  seen : s.seen.size = s.numVars
  order : s.order.Spans s.numVars

/-- The counters of a search are not below those at its start, and shortening made no
clause longer. -/
def Counted (s : Solver) : Prop :=
  s.budgetBase.1 ≤ s.stats.conflicts ∧ s.budgetBase.2 ≤ s.stats.propagations ∧
    s.stats.keptLiterals ≤ s.stats.rawLiterals

/-- The network has gone through a chain of steps. -/
structure Shifts (s s' : Solver) : Prop where
  chain : s.net.view.Chain s'.net.view
  ok : s'.ok = true → s.ok = true
  fitted : s.Fitted → s'.Fitted
  counted : s.Counted → s'.Counted

namespace Shifts

theorem refl (s : Solver) : s.Shifts s := ⟨.refl, id, id, id⟩

theorem trans (a : s.Shifts s') (b : s'.Shifts s'') : s.Shifts s'' :=
  ⟨a.chain.trans b.chain, fun ok => a.ok (b.ok ok), fun f => b.fitted (a.fitted f),
    fun c => b.counted (a.counted c)⟩

end Shifts

/-- If the interrupt flag is set, it was set before, or others have set it since. -/
structure Flagged (s s' : Solver) : Prop where
  looks : s.looks ≤ s'.looks
  flag : s'.interrupted = true → s.interrupted = true ∨
    ∃ k, s.looks < k ∧ k ≤ s'.looks ∧ s.outside.writes k = some true

namespace Flagged

theorem same (looks : s'.looks = s.looks) (flag : s'.interrupted = s.interrupted) :
    s.Flagged s' :=
  ⟨Nat.le_of_eq looks.symm, fun set => .inl (flag ▸ set)⟩

/-- What others write is numbered by the looks, so that the looks of both parts add up. -/
theorem trans (a : s.Flagged s') (b : s'.Flagged s'') (outside : s'.outside = s.outside) :
    s.Flagged s'' := by
  refine ⟨Nat.le_trans a.looks b.looks, fun set => ?_⟩
  rcases b.flag set with before | ⟨k, after, upTo, written⟩
  · rcases a.flag before with start | ⟨k, after, upTo, written⟩
    · exact .inl start
    · exact .inr ⟨k, after, Nat.le_trans upTo b.looks, written⟩
  · exact .inr ⟨k, Nat.lt_of_le_of_lt a.looks after, upTo, outside ▸ written⟩

/-- A look takes over what others have written since the look before. -/
theorem look (s : Solver) : s.Flagged s.look := by
  refine ⟨Nat.le_succ _, fun set => ?_⟩
  cases written : s.outside.writes (s.looks + 1) with
  | none => exact .inl (by simpa [Solver.look, written] using set)
  | some b =>
      have set : b = true := by simpa [Solver.look, written] using set
      exact .inr ⟨_, Nat.lt_succ_self _, Nat.le_refl _, set ▸ written⟩

end Flagged

/-- The terms on which a search goes on are the same: variables, options and caps, what may
stop it, and the conflicts so far.  It touches no model either before it ends. -/
structure SameTerms (s s' : Solver) : Prop where
  vars : s'.numVars = s.numVars
  options : s'.options = s.options
  budget : s'.budget = s.budget
  base : s'.budgetBase = s.budgetBase
  outside : s'.outside = s.outside
  flagged : s.Flagged s'
  answer : s'.stop.answer = s.stop.answer
  conflicts : s'.stats.conflicts = s.stats.conflicts
  model : s'.model = s.model

namespace SameTerms

theorem refl (s : Solver) : s.SameTerms s :=
  ⟨rfl, rfl, rfl, rfl, rfl, .same rfl rfl, rfl, rfl, rfl⟩

theorem trans (a : s.SameTerms s') (b : s'.SameTerms s'') : s.SameTerms s'' :=
  ⟨b.vars.trans a.vars, b.options.trans a.options, b.budget.trans a.budget, b.base.trans a.base,
    b.outside.trans a.outside, a.flagged.trans b.flagged a.outside, b.answer.trans a.answer,
    b.conflicts.trans a.conflicts, b.model.trans a.model⟩

theorem of_net {n : Network} (vars : n.trail.numVars = s.net.trail.numVars) :
    s.SameTerms { s with net := n } :=
  ⟨vars, rfl, rfl, rfl, rfl, .same rfl rfl, rfl, rfl, rfl⟩

theorem of_order (order : Order) : s.SameTerms { s with order } :=
  ⟨rfl, rfl, rfl, rfl, rfl, .same rfl rfl, rfl, rfl, rfl⟩

/-- Only the statistics change, and not the number of conflicts. -/
theorem of_stats {stats : Statistics} (conflicts : stats.conflicts = s.stats.conflicts) :
    s.SameTerms { s with stats } :=
  ⟨rfl, rfl, rfl, rfl, rfl, .same rfl rfl, rfl, conflicts, rfl⟩

end SameTerms

theorem sameTerms_log (s : Solver) (m : Message) : s.SameTerms (s.log m) := .of_net rfl

theorem sameTerms_report (s : Solver) (e : Event) : s.SameTerms (s.report e) := .of_net rfl

/-- What the steps of an analysis do. -/
structure Touches (s s' : Solver) : Prop extends Shifts s s', SameTerms s s'

namespace Touches

theorem refl (s : Solver) : s.Touches s := ⟨.refl s, .refl s⟩

theorem trans (a : s.Touches s') (b : s'.Touches s'') : s.Touches s'' :=
  ⟨a.toShifts.trans b.toShifts, a.toSameTerms.trans b.toSameTerms⟩

/-- Only marks are set or taken away. -/
theorem of_seen {seen : Flags Var} (size : seen.size = s.seen.size) :
    s.Touches { s with seen } :=
  ⟨⟨.refl, id, fun f => ⟨f.observed, f.info, size.trans f.seen, f.order⟩, id⟩,
    ⟨rfl, rfl, rfl, rfl, rfl, .same rfl rfl, rfl, rfl, rfl⟩⟩

end Touches

/-- The network has gone through a chain of steps, and no mark has been left behind. -/
structure Moves (s s' : Solver) : Prop extends Shifts s s' where
  clear : Flags.isClear s.seen = true → Flags.isClear s'.seen = true

namespace Moves

theorem refl (s : Solver) : s.Moves s := ⟨.refl s, id⟩

theorem trans (a : s.Moves s') (b : s'.Moves s'') : s.Moves s'' :=
  ⟨a.toShifts.trans b.toShifts, fun c => b.clear (a.clear c)⟩

theorem core (m : s.Moves s') (c : s.net.Core) : s'.net.Core := View.Chain.core m.chain c

/-- A chain of steps keeps the clauses indexed and grounded. -/
theorem sturdy (m : s.Moves s') (c : s.net.Core) (d : s.net.view.Sturdy) :
    s'.net.view.Sturdy :=
  Chain.sturdy m.chain c d

/-- Nothing but the network, and what the maps are filled with, differs. -/
theorem of_chain (chain : s.net.view.Chain s'.net.view) (ok : s'.ok = true → s.ok = true)
    (counted : s.Counted → s'.Counted) (vars : s'.numVars = s.numVars)
    (observed : s'.net.observed.size = s.net.observed.size)
    (info : s'.info.size = s.info.size) (seen : s'.seen = s.seen)
    (order : ∀ {n}, s.order.Spans n → s'.order.Spans n) : s.Moves s' :=
  ⟨⟨chain, ok, fun f => ⟨by rw [vars, observed, f.observed], by rw [vars, info, f.info],
    by rw [vars, seen, f.seen], vars ▸ order f.order⟩, counted⟩, fun clear => seen ▸ clear⟩

theorem of_eq (net : s'.net = s.net) (ok : s'.ok = true → s.ok = true)
    (counted : s.Counted → s'.Counted) (info : s'.info.size = s.info.size)
    (seen : s'.seen = s.seen)
    (order : ∀ {n}, s.order.Spans n → s'.order.Spans n) : s.Moves s' :=
  of_chain (net ▸ .refl) ok counted (by unfold numVars; rw [net]) (by rw [net]) info seen order

theorem of_net {n : Network} (chain : s.net.view.Chain n.view)
    (vars : n.trail.numVars = s.net.trail.numVars) (observed : n.observed = s.net.observed) :
    s.Moves { s with net := n } :=
  of_chain chain id id vars (congrArg DenseMap.size observed) rfl rfl id

end Moves

theorem Inv.core {conflict : Option ClauseId} {missing : Option Var}
    (i : s.Inv g conflict missing) : s.net.Core := i.net.wf.core

/-- What the operations count on, besides the invariant: clauses that are indexed and
grounded, maps that cover the variables, counters that agree, and no mark left behind. -/
structure Sane (s : Solver) : Prop where
  sturdy : s.net.view.Sturdy
  fitted : s.Fitted
  counted : s.Counted
  clear : Flags.isClear s.seen = true

/-- What the operations count on is kept by whatever moves the network. -/
theorem Sane.moves (x : s.Sane) (core : s.net.Core) (m : s.Moves s') : s'.Sane where
  sturdy := m.chain.sturdy core x.sturdy
  fitted := m.fitted x.fitted
  counted := m.counted x.counted
  clear := m.clear x.clear

theorem log_moves (s : Solver) (m : Message) : s.Moves (s.log m) :=
  .of_net (.single (s.net.log_step m)) rfl rfl

theorem report_moves (s : Solver) (e : Event) : s.Moves (s.report e) :=
  .of_net (.single (Network.idles_report s.net e).step) rfl rfl

/-- The counters may change as long as they still agree. -/
theorem count_moves (s : Solver) (stats : Statistics)
    (counted : s.Counted → { s with stats }.Counted) : s.Moves { s with stats } :=
  .of_eq rfl id counted rfl rfl id

/-! ## Levels -/

theorem pushLevel_moves (s : Solver) : s.Moves s.pushLevel :=
  have opened : s.Moves { s with net := s.net.openLevel } :=
    .of_net (.single s.net.openLevel_step) rfl rfl
  opened.trans (log_moves _ _)

/-- Taking literals off the trail leaves the maps of the order as long as they are. -/
theorem spans_undo {mode : PhaseSaving} {last n m : Nat} {t t' : Trail} {o o' : Order}
    (spans : o.Spans m) (h : undo mode last n t o = .ok (t', o')) : o'.Spans m := by
  induction n generalizing t o with
  | zero =>
      cases h
      exact spans
  | succ n ih =>
      obtain ⟨⟨t₁, p⟩, -, h⟩ := bind_eq_ok.mp h
      obtain ⟨o₁, released, h⟩ := bind_eq_ok.mp h
      exact ih (Order.spans_release spans released) h

/-- Going back changes nothing but the trail and the order. -/
theorem cancelUntil_frame (h : s.cancelUntil k = .ok s') :
    s'.net.observed = s.net.observed ∧ s'.info = s.info ∧ s'.seen = s.seen ∧
      (s.Counted → s'.Counted) ∧ ∀ {n}, s.order.Spans n → s'.order.Spans n := by
  rcases undo_of_cancelUntil h with ⟨-, rfl⟩ | ⟨-, last, n, t, order, -, undone, rfl⟩
  · exact ⟨rfl, rfl, rfl, id, id⟩
  · exact ⟨rfl, rfl, rfl, id, fun spans => spans_undo spans undone⟩

/-- Going back takes literals off the trail and gives their variables back to the heap. -/
theorem cancelUntil_moves (w : s.net.trail.WF) (c : s.order.Covers s.net.trail none)
    (h : s.cancelUntil k = .ok s') : s.Moves s' := by
  obtain ⟨observed, info, seen, counted, order⟩ := cancelUntil_frame h
  rcases cancelUntil_cases w c h with ⟨-, rfl⟩ | ⟨below, back⟩
  · exact .refl _
  · exact .of_chain (.single back.net.step) (fun ok => back.ok ▸ ok) counted
      back.net.trail.sizes (by rw [observed]) (by rw [info]) seen order

/-- A propagation only adds to the count of propagations. -/
theorem counted_propagateAll {conflict : Option ClauseId}
    (h : s.propagateAll = .ok (s', conflict)) (c : s.Counted) : s'.Counted := by
  obtain ⟨⟨net, conflict', count⟩, -, h⟩ := bind_eq_ok.mp h
  cases h
  exact ⟨c.1, Nat.le_add_right_of_le c.2.1, c.2.2⟩

/-- A propagation assigns literals that clauses imply, and moves watchers. -/
theorem propagateAll_moves {conflict : Option ClauseId} (core : s.net.Core)
    (h : s.propagateAll = .ok (s', conflict)) : s.Moves s' := by
  obtain ⟨count, propagated, e⟩ := propagateAll_eq_ok h
  obtain ⟨chain, -, grows⟩ := Network.propagate_chain core propagated
  have observed := (Network.drifts_drain propagated).silent.observed
  refine .of_chain chain (fun ok => ?_) (counted_propagateAll h) grows.size
    (congrArg DenseMap.size observed) ?_ ?_ ?_
  · rw [e] at ok
    exact ok
  · rw [e]
  · rw [e]
  · intro n spans
    rw [e]
    exact spans

/-! ## Analysis -/

theorem log_touches (s : Solver) (m : Message) : s.Touches (s.log m) :=
  ⟨(log_moves s m).toShifts, sameTerms_log s m⟩

theorem count_touches (s : Solver) (stats : Statistics)
    (counted : s.Counted → { s with stats }.Counted)
    (conflicts : stats.conflicts = s.stats.conflicts) : s.Touches { s with stats } :=
  ⟨(count_moves s stats counted).toShifts, .of_stats conflicts⟩

/-- Counting a use of a clause changes activities, which no step looks at. -/
theorem countUse_touches {id : ClauseId} (h : s.countUse id = .ok s') : s.Touches s' := by
  obtain ⟨c, -, h⟩ := bind_eq_ok.mp h
  split at h
  · obtain ⟨n, bumped, rfl⟩ := updateNet_eq_ok.mp h
    have idles := Network.idles_bumpClause bumped
    have vars : n.trail.numVars = s.net.trail.numVars := by rw [idles.trail]
    have moves : s.Moves { s with net := n } :=
      .of_net (.single idles.step) vars (Network.observed_bumpClause bumped)
    exact ⟨moves.toShifts, .of_net vars⟩
  · cases h
    exact .refl _

/-- A tick of an analysis leaves the clauses and the trail as they are, but for activities. -/
theorem Tick.touches (t : s.Tick s') : s.Touches s' := by
  cases t with
  | mark h =>
      obtain ⟨seen, written, h⟩ := bind_eq_ok.mp h
      cases h
      exact .of_seen (DenseMap.size_set written)
  | unmark h =>
      obtain ⟨seen, written, h⟩ := bind_eq_ok.mp h
      cases h
      exact .of_seen (DenseMap.size_set written)
  | bump h =>
      obtain ⟨order, bumped, rfl⟩ := updateOrder_eq_ok.mp h
      have moves : s.Moves { s with order } :=
        .of_eq rfl id id rfl rfl fun spans => Order.spans_bump spans bumped
      exact ⟨moves.toShifts, .of_order order⟩
  | use h => exact countUse_touches h
  | tell _ => exact log_touches s _

theorem Ticks.touches (t : s.Ticks s') : s.Touches s' := by
  induction t with
  | refl => exact .refl s
  | tail _ tick ih => exact ih.trans tick.touches

theorem countReplaced_touches (s : Solver) (q : Lit) (ps : List Lit) :
    s.Touches (s.countReplaced q ps) :=
  have counts := count_touches s { s.stats with
    replacedLiterals := s.stats.replacedLiterals + 1 } (by exact id) rfl
  counts.trans (log_touches _ _)

/-- Replacing unreliable literals marks variables, and counts what it replaces. -/
theorem replaceUnreliable_touches {fuel i : Nat} {lits lits' marked marked' : Array Lit}
    (h : replaceUnreliable fuel s lits marked i = .ok (s', lits', marked')) : s.Touches s' := by
  obtain ⟨-, touched, -⟩ := replaceUnreliable_rule (P := fun s₁ _ _ _ => s.Touches s₁)
    (fun touched _ _ => touched)
    (fun touched r =>
      have ⟨_, a⟩ := absorbPremises_spec r.absorbed
      (touched.trans (countReplaced_touches _ _ _)).trans a.ticks.touches)
    h (.refl s)
  exact touched

/-- Minimization leaves literals out and adds none. -/
theorem minimize_sublist {others kept : List Lit} (h : s.minimize others = .ok kept) :
    kept.Sublist others := by
  unfold minimize at h
  split at h
  · cases h
    exact .refl _
  · exact (filterM_eq_ok h).1

/-- The literals are counted before and after minimization, which makes no lesson longer. -/
theorem countLiterals_moves (s : Solver) {raw kept : Nat} (shorter : kept ≤ raw) :
    s.Moves (s.countLiterals raw kept) :=
  count_moves s _ fun c => ⟨c.1, c.2.1, Nat.succ_le_succ (Nat.add_le_add c.2.2 shorter)⟩

/-- The analysis of a conflict changes marks, activities, counters and messages. -/
theorem analyze_touches {id : ClauseId} {result : Option Lesson}
    (h : s.analyze id = .ok (s', result)) : s.Touches s' := by
  cases analyzed_of_ok h with
  | root _ _ resolving => exact (log_touches s _).trans (resolve_ticks resolving).touches
  | @lesson _ _ s₁ s₂ _ _ _ _ _ _ _ _ _ resolving _ replaced minimized _ cleared _ _ =>
      have first := (log_touches s _).trans (resolve_ticks resolving).touches
      have moves := countLiterals_moves s₂ (minimize_sublist minimized).length_le
      have counts : s₂.Touches _ := ⟨moves.toShifts, .of_stats rfl⟩
      exact ((first.trans (replaceUnreliable_touches replaced)).trans counts).trans
        (clearMarks_ticks cleared).touches

/-- Every mark that an analysis has set is taken away before it ends. -/
theorem analyze_moves {id : ClauseId} {result : Option Lesson} (b : Footing g s)
    (rejects : Rejects g s id) (h : s.analyze id = .ok (s', result)) : s.Moves s' :=
  ⟨(analyze_touches h).toShifts, fun _ => clear_analyze b rejects h⟩

/-! ## Storing and assigning -/

theorem addClause_moves {lits : List Lit} {learnt : Bool} {n : Network} {id : ClauseId}
    (once : (lits.map Lit.var).Nodup) (known : ∀ l ∈ lits, l.var.index < s.numVars)
    (h : s.net.addClause lits learnt = .ok (n, id)) : s.Moves { s with net := n } := by
  obtain ⟨c, -, -, stores, step⟩ := Network.addClause_step h once known
  exact .of_net (.single step) (by rw [stores.trail]) (Network.observed_addClause h)

/-- The first literal of a clause that has been looked up becomes true. -/
theorem imply_moves {p : Lit} {n : Network} {id : ClauseId} {c : Clause}
    (read : s.net.clause id = .ok c) (first : c.first = p)
    (h : s.net.enqueue p (Network.reasonFrom id c) = .ok n) : s.Moves { s with net := n } := by
  have e := Network.enqueued h
  have stored : s.net.body? id = some c.body := Arena.body?_of_get read
  subst first
  have step : View.Step s.net.view n.view := Network.Enqueued.imply stored e
  exact .of_net (.single step) (Trail.numVars_push e.trail) (Network.silent_enqueue h).observed

theorem lead_moves {p : Lit} {n : Network}
    (starts : s.level = 0 ∨ s.net.trail.marks.back? = some s.net.trail.lits.size)
    (h : s.net.enqueue p .decision = .ok n) : s.Moves { s with net := n } := by
  have e := Network.enqueued h
  exact .of_net (.single (e.lead starts)) (Trail.numVars_push e.trail)
    (Network.silent_enqueue h).observed

/-- A decision opens a level and assigns its literal there. -/
theorem decide_moves {p : Lit} (h : s.decide p = .ok s') : s.Moves s' := by
  obtain ⟨_, -, h⟩ := bind_eq_ok.mp h
  obtain ⟨_, -, h⟩ := bind_eq_ok.mp h
  obtain ⟨n, assigned, rfl⟩ := updateNet_eq_ok.mp h
  have led := lead_moves (.inr Array.back?_push) assigned
  exact (((count_moves _ _ (by exact id)).trans (pushLevel_moves _)).trans (log_moves _ _)).trans led

/-! ## Learning -/

/-- After going back, the lesson is stored unless it has one literal only, and its asserting
literal is assigned. -/
theorem assertLesson_moves {conflict : Option ClauseId} {l : Lesson}
    (i : s.Inv g conflict none) (t : Taught g s l) (h : s.assertLesson l = .ok s') :
    s.Moves s' := by
  obtain ⟨s₁, cancelled, h⟩ := bind_eq_ok.mp h
  have w := i.net.wf.trail
  have moves := (log_moves s _).trans (cancelUntil_moves w i.covers cancelled)
  rcases cancelUntil_cases (s := s.log _) w i.covers cancelled with ⟨high, -⟩ | ⟨-, back⟩
  · exact absurd (t.lower w) (Nat.not_lt_of_le high)
  have known : ∀ q ∈ l.asserting :: l.others, q.var.index < s₁.numVars := fun q hq => by
    have inside : (-q).var.index < s.numVars :=
      DenseMap.toIndex_lt (w.held.mpr (t.false_ q hq))
    have vars : s₁.numVars = s.numVars := back.net.trail.sizes
    rwa [vars]
  have once := t.once
  cases others : l.others with
  | nil =>
      rw [others] at h
      obtain ⟨_, root, h⟩ := bind_eq_ok.mp h
      obtain ⟨n, assigned, rfl⟩ := updateNet_eq_ok.mp h
      have root : s₁.level = 0 := back.level.trans (by simpa using ensure_eq_ok.mp root)
      exact moves.trans (lead_moves (.inl root) assigned)
  | cons q rest =>
      rw [others] at h once known
      obtain ⟨⟨n₁, id⟩, added, h⟩ := bind_eq_ok.mp h
      obtain ⟨n₂, bumped, h⟩ := bind_eq_ok.mp h
      obtain ⟨c, read, h⟩ := bind_eq_ok.mp h
      obtain ⟨n, assigned, h⟩ := bind_eq_ok.mp h
      cases h
      obtain ⟨b, lits, -, stores⟩ := Network.stores added
      have idles := Network.idles_bumpClause bumped
      have here : n₂.body? id = some c.body := Arena.body?_of_get read
      have first : c.first = l.asserting := by
        rw [idles.body, stores.body_new] at here
        cases here
        exact (Network.parts_of_lits lits).1
      have bump : Solver.Moves { s₁ with net := n₁ } { s₁ with net := n₂ } :=
        .of_net (.single idles.step) (by rw [idles.trail]) (Network.observed_bumpClause bumped)
      have implied : Solver.Moves { s₁ with net := n₂ } { s₁ with net := n } :=
        imply_moves read first assigned
      exact ((moves.trans (addClause_moves once known added)).trans bump).trans implied

/-- A conflict that follows from the root level takes the solver back there. -/
theorem assertRootConflict_moves (w : s.net.trail.WF) (c : s.order.Covers s.net.trail none)
    (h : s.assertRootConflict = .ok s') : s.Moves s' := by
  obtain ⟨s₁, cancelled, h⟩ := bind_eq_ok.mp h
  cases h
  have failed : s₁.Moves { s₁ with ok := false } := .of_eq rfl nofun id rfl rfl id
  exact ((log_moves s _).trans (cancelUntil_moves w c cancelled)).trans failed

theorem decayActivities_moves (s : Solver) : s.Moves s.decayActivities := by
  have idles : s.net.Idles s.decayActivities.net :=
    ⟨⟨rfl, rfl, fun _ => rfl, rfl, fun told => told⟩,
      ⟨.refl, fun _ => rfl, rfl, rfl, fun _ => rfl⟩, rfl⟩
  exact .of_chain (.single idles.step) id id rfl rfl rfl rfl fun spans =>
    Order.spans_decay spans _

/-- What is learnt from a conflict is a clause, or that the clauses cannot be satisfied. -/
theorem learn_moves {id : ClauseId} (i : s.Inv g (some id) none) (h : s.learn id = .ok s') :
    s.Moves s' := by
  obtain ⟨⟨s₁, result⟩, analyzed, h⟩ := bind_eq_ok.mp h
  obtain ⟨k, concludes⟩ := analyze_taught i.footing i.rejects analyzed
  have i₁ := k.inv i
  have moves := analyze_moves i.footing i.rejects analyzed
  cases result with
  | none =>
      obtain ⟨s₂, asserted, h⟩ := bind_eq_ok.mp h
      cases h
      exact (moves.trans (assertRootConflict_moves i₁.net.wf.trail i₁.covers asserted)).trans
        (decayActivities_moves s₂)
  | some l =>
      obtain ⟨s₂, asserted, h⟩ := bind_eq_ok.mp h
      cases h
      exact (moves.trans (assertLesson_moves i₁ concludes asserted)).trans
        (decayActivities_moves s₂)

theorem countConflict_moves (s : Solver) : s.Moves s.countConflict :=
  count_moves s _ fun c => ⟨Nat.le_succ_of_le c.1, c.2⟩

theorem resolveConflict_moves {b : Bool} (i : s.Inv g s.pending none)
    (h : s.resolveConflict = .ok (s', b)) : s.Moves s' := by
  unfold Solver.resolveConflict at h
  cases pending : s.pending with
  | none =>
      rw [pending] at h
      cases h
      exact .refl _
  | some id =>
      rw [pending] at h i
      obtain ⟨_, -, h⟩ := bind_eq_ok.mp h
      obtain ⟨s₁, learnt, h⟩ := bind_eq_ok.mp h
      cases h
      have counted : { s with pending := none }.countConflict.Inv g (some id) none :=
        ⟨i.net, i.refutes, i.covers, i.refuted⟩
      have taken : s.Moves { s with pending := none } :=
        .of_eq rfl (fun ok => ok) (fun c => c) rfl rfl fun spans => spans
      exact (taken.trans (countConflict_moves _)).trans (learn_moves counted learnt)

/-! ## Adding clauses -/

variable {lits left c kept : List Lit} {b : Bool}

/-- The literals that are kept have no value at the root level. -/
theorem open_of_normalizeFrom {t : Trail} {ls : List Lit}
    (h : normalizeFrom t kept ls = .ok (.clause c))
    (open_ : ∀ l ∈ kept, t.rootValue l = .ok .unknown) : ∀ l ∈ c, t.rootValue l = .ok .unknown := by
  induction ls generalizing kept with
  | nil =>
      cases h
      simpa using open_
  | cons l ls ih =>
      obtain ⟨value, read, h⟩ := bind_eq_ok.mp h
      split at h
      · cases h
      next unsettled =>
        split at h
        next new =>
          simp only [Bool.or_eq_true, Bool.and_eq_true, decide_eq_true_eq, not_or] at unsettled new
          refine ih h fun m hm => ?_
          rcases List.mem_cons.mp hm with rfl | hm
          · cases value with
            | holds => exact absurd rfl unsettled.1
            | fails => exact absurd rfl new.1
            | unknown => exact read
          · exact open_ m hm
        · exact ih h open_

theorem index_lt_of_normalize {t : Trail} (h : normalize t lits = .ok (.clause c)) :
    ∀ l ∈ c, l.var.index < t.numVars := fun l hl =>
  index_lt_of_rootValue (open_of_normalizeFrom h (by simp) l hl)

theorem assertUnit_moves {l : Lit} (core : s.net.Core) (root : s.level = 0)
    (h : s.assertUnit l = .ok (s', b)) : s.Moves s' := by
  obtain ⟨s₁, asserted, h⟩ := bind_eq_ok.mp h
  obtain ⟨n, assigned, rfl⟩ := updateNet_eq_ok.mp asserted
  obtain ⟨⟨s₂, conflict⟩, propagated, h⟩ := bind_eq_ok.mp h
  have led := lead_moves (.inl root) assigned
  have moves := led.trans (propagateAll_moves (led.core core) propagated)
  cases conflict with
  | none =>
      cases h
      exact moves
  | some id =>
      cases h
      have failed : s₂.Moves { s₂ with ok := false } :=
        .of_eq rfl nofun (fun c => c) rfl rfl fun spans => spans
      exact moves.trans failed

/-- At the root level a clause is passed over, assigned, or stored. -/
theorem addAtRoot_moves (core : s.net.Core) (root : s.level = 0)
    (h : s.addAtRoot lits = .ok (s', b, left)) : s.Moves s' := by
  obtain ⟨normal, normalized, h⟩ := bind_eq_ok.mp h
  have spec := normalize_spec core.trail normalized
  split at h
  next =>
    cases h
    exact .refl _
  next =>
    cases h
    exact .of_eq rfl nofun id rfl rfl id
  next =>
    obtain ⟨⟨s₁, answer⟩, asserted, h⟩ := bind_eq_ok.mp h
    cases h
    exact assertUnit_moves core root asserted
  next =>
    obtain ⟨⟨n, id⟩, added, h⟩ := bind_eq_ok.mp h
    cases h
    have known := index_lt_of_normalize normalized
    exact addClause_moves spec.once known added

/-- Before the clause is stored, the solver may go back, and afterwards its first literal may be
assigned. -/
theorem insertArranged_moves {a r : Ranked} {rest : List Ranked} (core : s.net.Core)
    (covers : s.order.Covers s.net.trail none)
    (once : (((a :: r :: rest).map (·.lit)).map Lit.var).Nodup)
    (known : ∀ l ∈ (a :: r :: rest).map (·.lit), l.var.index < s.numVars)
    (h : s.insertArranged a r ((a :: r :: rest).map (·.lit)) = .ok s') : s.Moves s' := by
  have vars : ∀ {k s₁}, s.cancelUntil k = .ok s₁ → s₁.numVars = s.numVars := fun cancelled => by
    rcases cancelUntil_cases core.trail covers cancelled with ⟨-, rfl⟩ | ⟨-, back⟩
    · rfl
    · exact back.net.trail.sizes
  unfold insertArranged at h
  split at h
  · obtain ⟨⟨n, id⟩, added, h⟩ := bind_eq_ok.mp h
    cases h
    exact addClause_moves once known added
  · obtain ⟨k, -, h⟩ := bind_eq_ok.mp h
    obtain ⟨s₁, cancelled, h⟩ := bind_eq_ok.mp h
    obtain ⟨⟨n, id⟩, added, h⟩ := bind_eq_ok.mp h
    cases h
    exact (cancelUntil_moves core.trail covers cancelled).trans
      (addClause_moves once (vars cancelled ▸ known) added)
  · obtain ⟨s₁, cancelled, h⟩ := bind_eq_ok.mp h
    obtain ⟨⟨n₁, id⟩, added, h⟩ := bind_eq_ok.mp h
    obtain ⟨d, read, h⟩ := bind_eq_ok.mp h
    obtain ⟨n, assigned, h⟩ := bind_eq_ok.mp h
    cases h
    obtain ⟨d', lits, -, stores⟩ := Network.stores added
    have here : n₁.body? id = some d.body := Arena.body?_of_get read
    have first : d.first = a.lit := by
      rw [stores.body_new] at here
      cases here
      exact (Network.parts_of_lits lits).1
    have implied : Solver.Moves { s₁ with net := n₁ } { s₁ with net := n } :=
      imply_moves read first assigned
    exact ((cancelUntil_moves core.trail covers cancelled).trans
      (addClause_moves once (vars cancelled ▸ known) added)).trans implied

/-- Above the root level a single literal takes the solver back there, and a longer clause is
arranged first. -/
theorem addAboveRoot_moves (core : s.net.Core) (covers : s.order.Covers s.net.trail none)
    (h : s.addAboveRoot lits = .ok (s', b, left)) : s.Moves s' := by
  obtain ⟨normal, normalized, h⟩ := bind_eq_ok.mp h
  have spec := normalize_spec core.trail normalized
  split at h
  next =>
    cases h
    exact .refl _
  next =>
    cases h
    exact .of_eq rfl nofun id rfl rfl id
  next =>
    obtain ⟨s₁, cancelled, h⟩ := bind_eq_ok.mp h
    obtain ⟨⟨s₂, answer⟩, asserted, h⟩ := bind_eq_ok.mp h
    cases h
    have moves := cancelUntil_moves core.trail covers cancelled
    have root : s₁.level = 0 := by
      rcases cancelUntil_cases core.trail covers cancelled with ⟨low, rfl⟩ | ⟨-, back⟩
      · exact Nat.le_zero.mp low
      · exact back.level
    exact moves.trans (assertUnit_moves (moves.core core) root asserted)
  next =>
    obtain ⟨rs, arranged, h⟩ := bind_eq_ok.mp h
    have arr := arrange_spec arranged
    have known := index_lt_of_normalize normalized
    split at h
    next a r rest =>
      obtain ⟨s₁, inserted, h⟩ := bind_eq_ok.mp h
      cases h
      refine insertArranged_moves core covers ?_ (fun l hl => ?_) inserted
      · exact (arr.perm.map Lit.var).nodup_iff.mpr spec.once
      · exact known l (arr.perm.mem_iff.mp hl)
    next => cases h

theorem addClauseReporting_moves (core : s.net.Core) (covers : s.order.Covers s.net.trail none)
    (h : s.addClauseReporting lits = .ok (s', b, left)) : s.Moves s' := by
  unfold addClauseReporting at h
  split at h
  · cases h
    exact .refl _
  · split at h
    next root =>
      have told := log_moves s (.addAtRoot lits)
      exact told.trans (addAtRoot_moves (told.core core) root h)
    next =>
      have told := log_moves s (.addAtLevel lits s.level)
      exact told.trans (addAboveRoot_moves (told.core core) covers h)

/-! ## Giving clauses up -/

/-- A collection changes the places of the clauses, which no step looks at. -/
theorem checkGarbage_moves (i : s.Inv g none none) (h : s.checkGarbage = .ok s') :
    s.Moves s' := by
  unfold Solver.checkGarbage at h
  split at h
  · obtain ⟨n, collected, rfl⟩ := updateNet_eq_ok.mp h
    have r := Network.reduces_collect i.net.wf collected
    exact .of_net (.single (Network.collect_step i.net.wf.watched.size collected))
      (congrArg DenseMap.size r.trail.values) (Network.observed_collect collected)
  · cases h
    exact .refl _

/-- Learnt clauses that are no reasons are removed, in whatever order they are taken. -/
theorem reduceBy_moves {sort : List Candidate → List Candidate} (perm : ∀ cs, (sort cs).Perm cs)
    (i : s.Inv g none none) (h : s.reduceBy sort = .ok s') : s.Moves s' := by
  obtain ⟨s₁, reduced, h⟩ := bind_eq_ok.mp h
  obtain ⟨n, pruned, rfl⟩ := updateNet_eq_ok.mp reduced
  have r := Network.reduces_reduceLearnts perm i.net.wf pruned
  have chain := Network.reduceLearnts_chain perm i.net.wf.core pruned
  have first : s.Moves { s with net := n } :=
    .of_net chain (congrArg DenseMap.size r.trail.values) (Network.observed_reduceLearnts pruned)
  exact first.trans (checkGarbage_moves (i.reduced r) h)

theorem reduce_moves (i : s.Inv g none none) (h : s.reduce = .ok s') : s.Moves s' :=
  reduceBy_moves s.outside.arrange_perm i h

/-- At the root level satisfied clauses are removed and false literals cut off. -/
theorem simplifyNow_moves (i : s.Inv g none none) (root : s.level = 0)
    (h : s.simplifyNow = .ok s') : s.Moves s' := by
  obtain ⟨n, s₂, order, schedule, sweeping, collected, rebuilt, rfl⟩ := simplifyNow_eq_ok h
  have r := Network.reduces_sweepAll i.net.wf root sweeping
  have chain := Network.sweepAll_chain i.net.wf.core root sweeping
  have first : s.Moves { s with net := n } :=
    .of_net chain (congrArg DenseMap.size r.trail.values) (Network.observed_sweepAll sweeping)
  have second := first.trans (checkGarbage_moves (i.reduced r) collected)
  have third : ∀ schedule, s₂.Moves { s₂ with order, schedule } := fun _ =>
    ⟨⟨.refl, id, fun f => ⟨f.observed, f.info, f.seen, Order.spans_rebuild f.order rfl rebuilt⟩,
      id⟩, id⟩
  exact (second.trans (third _)).trans (report_moves _ _)

/-- Simplification is a propagation, and the sweep of the clauses if it is due. -/
theorem simplifyRoot_moves (i : s.Inv g none none) (h : s.simplifyRoot = .ok (s', b)) :
    s.Moves s' := by
  obtain ⟨_, root, h⟩ := bind_eq_ok.mp h
  have root : s.level = 0 := by simpa using ensure_eq_ok.mp root
  split at h
  next =>
    cases h
    exact .refl _
  next =>
    obtain ⟨⟨s₁, conflict⟩, propagated, h⟩ := bind_eq_ok.mp h
    obtain ⟨advance, i₁⟩ := i.propagateAll propagated
    have moves := propagateAll_moves i.net.wf.core propagated
    cases conflict with
    | some id =>
        cases h
        have failed : s₁.Moves { s₁ with ok := false } :=
          .of_eq rfl nofun (fun c => c) rfl rfl fun spans => spans
        exact moves.trans failed
    | none =>
        simp only at h
        split at h
        · cases h
          exact moves
        · obtain ⟨s₂, simplified, h⟩ := bind_eq_ok.mp h
          cases h
          exact moves.trans (simplifyNow_moves i₁ (advance.level.trans root) simplified)

/-! ## The search -/

/-- The budget is looked at, and the callback may be asked, but nothing is assigned. -/
theorem withinBudget_moves {within : Bool} (h : s.withinBudget = .ok (s', within)) :
    s.Moves s' := by
  obtain ⟨_, rfl⟩ := withinBudget_eq_ok h
  exact .of_eq rfl id id rfl rfl id

theorem adjustLearntLimit_moves (h : s.adjustLearntLimit = .ok s') : s.Moves s' := by
  unfold adjustLearntLimit at h
  simp only at h
  split at h
  · obtain ⟨p, -, h⟩ := bind_eq_ok.mp h
    cases h
    refine Moves.trans ?_ (report_moves _ _)
    exact .of_eq rfl id id rfl rfl id
  · cases h
    exact .of_eq rfl id id rfl rfl id

/-- Picking a branch changes the heap and the random numbers only. -/
theorem pickBranch_moves {choice : Option Lit} (h : s.pickBranch = .ok (s', choice)) :
    s.Moves s' := by
  obtain ⟨⟨order, choice', random⟩, picked, h⟩ := bind_eq_ok.mp h
  have moves : s.Moves { s with order } :=
    .of_eq rfl id id rfl rfl fun spans => Order.spans_pickBy spans picked
  simp only at h
  split at h
  · cases h
    exact moves.trans (count_moves _ _ (by exact id))
  · cases h
    exact moves

variable {x : Step}

/-- The step after a conflict counts it and learns from it, unless it is at the root level. -/
theorem stepConflict_moves {id : ClauseId} (i : s.Inv g (some id) none)
    (h : s.stepConflict id = .ok (s', x)) : s.Moves s' := by
  have counted : s.countConflict.Inv g (some id) none := ⟨i.net, i.refutes, i.covers, i.refuted⟩
  unfold stepConflict at h
  simp only at h
  split at h
  · cases h
    exact countConflict_moves s
  · obtain ⟨s₁, learnt, h⟩ := bind_eq_ok.mp h
    have moves := (countConflict_moves s).trans (learn_moves counted learnt)
    split at h
    · obtain ⟨s₂, adjusted, h⟩ := bind_eq_ok.mp h
      cases h
      exact moves.trans (adjustLearntLimit_moves adjusted)
    · cases h
      exact moves

/-- The step after a quiet propagation may give clauses up before it decides. -/
theorem stepDecision_moves (r : Running g s) (h : s.stepDecision = .ok (s', x)) :
    s.Moves s' := by
  obtain ⟨s₁, reduced, h⟩ := bind_eq_ok.mp h
  have first : s.Moves s₁ := by
    unfold reduceAtLimit at reduced
    split at reduced
    · exact reduce_moves r.inv reduced
    · cases reduced
      exact .refl _
  obtain ⟨⟨s₂, choice⟩, picked, h⟩ := bind_eq_ok.mp h
  have second := first.trans (pickBranch_moves picked)
  cases choice with
  | none =>
      cases h
      exact second
  | some l =>
      obtain ⟨s₃, decision, h⟩ := bind_eq_ok.mp h
      cases h
      exact second.trans (decide_moves decision)

theorem giveUp_moves (r : Running g s) (h : s.giveUp = .ok (s', x)) : s.Moves s' := by
  obtain ⟨_, -, h⟩ := bind_eq_ok.mp h
  obtain ⟨s₁, cancelled, h⟩ := bind_eq_ok.mp h
  cases h
  exact cancelUntil_moves r.inv.net.wf.trail r.inv.covers cancelled

theorem simplifyAtRoot_moves (r : Running g s) (h : s.simplifyAtRoot = .ok (s', b)) :
    s.Moves s' := by
  unfold simplifyAtRoot at h
  split at h
  · exact simplifyRoot_moves r.inv h
  · cases h
    exact .refl _

/-- After a quiet propagation the round is given up, or the solver simplifies and decides. -/
theorem stepQuiet_moves {spent : Bool} (r : Running g s)
    (h : s.stepQuiet spent = .ok (s', x)) : s.Moves s' := by
  unfold stepQuiet at h
  split at h
  · exact giveUp_moves r h
  · obtain ⟨⟨s₁, within⟩, asked, h⟩ := bind_eq_ok.mp h
    have first := withinBudget_moves asked
    have r₁ := r.kin (kin_withinBudget asked)
    cases within with
    | false => exact first.trans (giveUp_moves r₁ h)
    | true =>
        obtain ⟨⟨s₂, fine⟩, simplified, h⟩ := bind_eq_ok.mp h
        obtain ⟨i₂, idle, ok, -⟩ := r₁.simplifyAtRoot simplified
        have second := first.trans (simplifyAtRoot_moves r₁ simplified)
        cases fine with
        | false =>
            cases h
            exact second
        | true => exact second.trans (stepDecision_moves ⟨i₂, ok, idle⟩ h)

theorem step_moves {spent : Bool} (r : Running g s) (h : s.step spent = .ok (s', x)) :
    s.Moves s' := by
  obtain ⟨⟨s₁, conflict⟩, propagated, h⟩ := bind_eq_ok.mp h
  obtain ⟨i, ok, quiet⟩ := r.propagateAll propagated
  have first := propagateAll_moves r.inv.net.wf.core propagated
  cases conflict with
  | some id => exact first.trans (stepConflict_moves i h)
  | none => exact first.trans (stepQuiet_moves ⟨i, ok, quiet.2⟩ h)

/-- By induction over its steps, a round takes the network through one chain. -/
theorem roundFrom_moves {limit : Int} {fuel count : Nat} {answer : Truth} (r : Running g s)
    (free : ∀ k, g.settled k) (h : roundFrom limit fuel count s = .ok (s', answer)) :
    s.Moves s' := by
  induction fuel generalizing s count with
  | zero => cases h
  | succ fuel ih =>
      obtain ⟨⟨s₁, y⟩, stepping, h⟩ := bind_eq_ok.mp h
      have stepped := step_stepped r free stepping
      have first := step_moves r stepping
      cases y with
      | finished answer =>
          cases h
          exact first
      | conflict => exact first.trans (ih stepped h)
      | decision => exact first.trans (ih stepped h)

theorem round_moves {limit : Int} {fuel : Nat} {answer : Truth} (r : Running g s)
    (free : ∀ k, g.settled k) (h : s.round fuel limit = .ok (s', answer)) : s.Moves s' := by
  obtain ⟨_, -, h⟩ := bind_eq_ok.mp h
  exact (count_moves _ _ (by exact id)).trans (roundFrom_moves r.countRound free h)

/-- By induction over the rounds, so does a whole sequence of them. -/
theorem rounds_moves {fuel more n : Nat} {answer : Truth} (r : Running g s)
    (free : ∀ k, g.settled k) (h : rounds fuel more n s = .ok (s', answer)) : s.Moves s' := by
  induction more generalizing s n with
  | zero => cases h
  | succ more ih =>
      obtain ⟨factor, -, h⟩ := bind_eq_ok.mp h
      obtain ⟨⟨s₁, y⟩, round, h⟩ := bind_eq_ok.mp h
      have answered := round_answered r free round
      obtain ⟨⟨s₂, within⟩, asked, rest⟩ := bind_eq_ok.mp h
      have first := (round_moves r free round).trans (withinBudget_moves asked)
      simp only at rest
      split at rest
      · cases rest
        exact first
      next again =>
        simp only [Bool.or_eq_true, Bool.not_eq_true', decide_eq_true_eq, not_or,
          Bool.not_eq_false, ne_eq, not_not] at again
        obtain ⟨-, rfl⟩ := again
        have running : Running g s₂ := Running.kin answered (kin_withinBudget asked)
        have told := (log_moves s₂ (.searchRestart n)).trans (report_moves _ .restart)
        refine (first.trans told).trans (ih (Running.kin running ?_) rest)
        exact (kin_log rfl _).trans (kin_report _ _)

theorem conclude_moves {answer : Truth} (a : Answered g s answer)
    (h : s.conclude answer = .ok s') : s.Moves s' := by
  obtain ⟨s₁, cancelled, h⟩ := bind_eq_ok.mp h
  cases h
  have last : s₁.Moves ({ s₁ with interrupted := false }.log (.searchResult answer)) := by
    refine Moves.trans ?_ (log_moves _ _)
    exact .of_eq rfl id id rfl rfl id
  refine Moves.trans ?_ last
  have told := report_moves s (.result answer)
  cases answer with
  | unknown =>
      exact told.trans
        (cancelUntil_moves (s := s.report _) a.inv.net.wf.trail a.inv.covers cancelled)
  | fails =>
      have failed : (s.report (.result .fails)).Moves
          { s.report (.result .fails) with ok := false } := .of_eq rfl nofun id rfl rfl id
      exact (told.trans failed).trans (cancelUntil_moves (s := { s.report _ with ok := false })
        a.1.net.wf.trail a.1.covers cancelled)
  | holds =>
      have kept : (s.report (.result .holds)).Moves { s.report (.result .holds) with
          model := (s.report (.result .holds)).assignment } := .of_eq rfl id id rfl rfl id
      exact (told.trans kept).trans (cancelUntil_moves
        (s := { s.report _ with model := (s.report _).assignment }) a.1.inv.net.wf.trail
        a.1.inv.covers cancelled)

theorem started_moves (s : Solver) : s.Moves s.started := by
  refine Moves.trans (Moves.trans ?_ (log_moves _ .searchStart)) (report_moves _ .start)
  exact .of_eq rfl id (fun c => ⟨Nat.le_refl _, Nat.le_refl _, c.2.2⟩) rfl rfl id

theorem cleared_moves (s : Solver) : s.Moves { s with model := #[] } := .of_eq rfl id id rfl rfl id

theorem solve_moves {fuel : Nat} {answer : Truth} (r : Ready g s) (loose : ¬g.paced)
    (h : s.solve fuel = .ok (s', answer)) : s.Moves s' := by
  unfold Solver.solve at h
  simp only at h
  split at h
  · cases h
    exact cleared_moves s
  next fine =>
    have ok : s.ok = true := by simpa using fine
    obtain ⟨s₁, cancelled, h⟩ := bind_eq_ok.mp h
    obtain ⟨⟨s₂, y⟩, searched, h⟩ := bind_eq_ok.mp h
    obtain ⟨s₃, ended, h⟩ := bind_eq_ok.mp h
    cases h
    have first := (cleared_moves s).trans
      (cancelUntil_moves r.inv.net.wf.trail r.inv.covers cancelled)
    have running := r.inv.start r.idle (fun on => absurd on.1 loose) ok cancelled
    change rounds fuel fuel 0 s₁.started = _ at searched
    have answered := rounds_answered running (fun _ => trivial) searched
    exact ((first.trans (started_moves s₁)).trans
      (rounds_moves running (fun _ => trivial) searched)).trans (conclude_moves answered ended)

/-! ## Variables and texts -/

/-- The flag of a new variable is not set. -/
theorem isClear_reserve {flags : Flags Var} (clear : Flags.isClear flags = true) :
    Flags.isClear (flags.reserve v false) = true := by
  unfold Flags.isClear DenseMap.reserve at *
  split
  · exact clear
  · rw [Array.all_append, clear, Bool.true_and, Array.all_eq_true]
    simp

/-- A variable is added to the trail and to every map. -/
theorem newVar_moves {spec : VarSpec} (size : s.net.watches.size = 2 * s.net.trail.numVars)
    (h : s.newVar spec = .ok (s', v)) : s.Moves s' := by
  obtain ⟨_, -, h⟩ := bind_eq_ok.mp h
  obtain ⟨order, added, h⟩ := bind_eq_ok.mp h
  cases h
  have fresh : (⟨s.numVars⟩ : Var).index = s.net.trail.numVars := rfl
  have grown : (s.net.trail.addVar ⟨s.numVars⟩).numVars = s.numVars + 1 :=
    Trail.numVars_addVar fresh
  have wider : ∀ {n : Nat}, n = s.numVars → max n (s.numVars + 1) = s.numVars + 1 := fun same => by
    rw [same]
    exact Nat.max_eq_right (Nat.le_succ _)
  refine Moves.trans ?_ (log_moves _ _)
  refine ⟨⟨.single (Network.addVar_step size fresh), id, fun f => ⟨?_, ?_, ?_, ?_⟩, id⟩,
    isClear_reserve⟩
  · exact ((DenseMap.size_insert ..).trans (wider f.observed)).trans grown.symm
  · exact ((DenseMap.size_insert ..).trans (wider f.info)).trans grown.symm
  · exact ((DenseMap.size_reserve ..).trans (wider f.seen)).trans grown.symm
  · exact (congrArg order.Spans grown.symm).mp (Order.spans_addVar f.order rfl added)

theorem newVars_moves {spec : VarSpec} {n : Nat} (r : Ready g s)
    (h : newVars spec n s = .ok s') : s.Moves s' := by
  induction n generalizing s with
  | zero =>
      cases h
      exact .refl _
  | succ n ih =>
      obtain ⟨⟨s₁, v⟩, added, h⟩ := bind_eq_ok.mp h
      exact (newVar_moves r.inv.net.wf.watched.size added).trans (ih (r.newVar added).1 h)

theorem varOfIndex_moves {i : Nat} (r : Ready g s) (h : s.varOfIndex i = .ok (s', v)) :
    s.Moves s' := by
  obtain ⟨s₁, added, h⟩ := bind_eq_ok.mp h
  obtain ⟨_, -, h⟩ := bind_eq_ok.mp h
  cases h
  exact newVars_moves r added

theorem mention_moves {ls : List Lit} (r : Ready g s) (h : s.mention ls = .ok s') :
    s.Moves s' := by
  induction ls generalizing s with
  | nil =>
      cases h
      exact .refl _
  | cons l ls ih =>
      obtain ⟨⟨s₁, v⟩, added, h⟩ := bind_eq_ok.mp h
      exact (varOfIndex_moves r added).trans (ih (r.varOfIndex added).1 h)

theorem loadItem_moves {item : Dimacs.Item} (r : Ready g s) (h : s.loadItem item = .ok s') :
    s.Moves s' := by
  cases item with
  | comment =>
      cases h
      exact .refl _
  | header vars clauses =>
      cases h
      exact log_moves s _
  | clause lits =>
      obtain ⟨s₁, answer, left, mentioned, reported⟩ := loadItem_clause_eq_ok h
      have i₁ := (r.mention mentioned).1.inv
      exact (mention_moves r mentioned).trans
        (addClauseReporting_moves i₁.net.wf.core i₁.covers reported)

theorem loadItems_moves {items : List Dimacs.Item} (r : Ready g s) (w : Welcomes g s)
    (h : s.loadItems items = .ok s') : s.Moves s' := by
  induction items generalizing g s with
  | nil =>
      cases h
      exact .refl _
  | cons item items ih =>
      obtain ⟨s₁, loaded, h⟩ := bind_eq_ok.mp h
      obtain ⟨r₁, d₁⟩ := r.loadItem w loaded
      exact (loadItem_moves r loaded).trans (ih r₁ (w.descend d₁) h)

theorem load_moves {strict : Bool} {bs : List UInt8} {error : Option Dimacs.ReadError}
    (r : Ready g s) (w : Welcomes g s) (h : s.load strict bs = .ok (s', error)) :
    s.Moves s' := by
  obtain ⟨s₁, loaded, h⟩ := bind_eq_ok.mp h
  obtain ⟨s₂, mentioned, h⟩ := bind_eq_ok.mp h
  cases h
  exact (loadItems_moves r w loaded).trans (mention_moves (r.loadItems w loaded).1 mentioned)

/-! ## Calls and runs -/

theorem propagate_moves (core : s.net.Core) (h : s.propagate = .ok (s', b)) : s.Moves s' := by
  unfold Solver.propagate at h
  split at h
  · cases h
    exact .refl _
  · obtain ⟨⟨s₁, conflict⟩, propagated, h⟩ := bind_eq_ok.mp h
    have moves := propagateAll_moves core propagated
    cases conflict with
    | none =>
        cases h
        exact moves
    | some id =>
        simp only at h
        split at h
        · cases h
          have failed : s₁.Moves { s₁ with ok := false } :=
            .of_eq rfl nofun (fun c => c) rfl rfl fun spans => spans
          exact moves.trans failed
        · cases h
          have kept : s₁.Moves { s₁ with pending := some id } :=
            .of_eq rfl (fun ok => ok) (fun c => c) rfl rfl fun spans => spans
          exact moves.trans kept

theorem simplify_moves (i : s.Inv g none none) (h : s.simplify = .ok (s', b)) : s.Moves s' := by
  unfold Solver.simplify at h
  split at h
  · exact simplifyRoot_moves i h
  · cases h

/-- Settings change the flags of a variable, never the clauses. -/
theorem setReliable_moves {b : Bool} (h : s.setReliable v b = .ok s') : s.Moves s' := by
  obtain ⟨_, -, h⟩ := bind_eq_ok.mp h
  obtain ⟨info, written, h⟩ := bind_eq_ok.mp h
  cases h
  exact .of_eq rfl id id (DenseMap.size_set written) rfl id

/-- A variable that may be decided again goes back into the heap. -/
theorem setDecision_moves {b : Bool} (h : s.setDecision v b = .ok s') : s.Moves s' := by
  obtain ⟨order, changed, rfl⟩ := updateOrder_eq_ok.mp h
  exact .of_eq rfl id id rfl rfl fun spans => Order.spans_setEligible spans changed

theorem setObserved_moves {b : Bool} (h : s.setObserved v b = .ok s') : s.Moves s' := by
  obtain ⟨observed, written, h⟩ := bind_eq_ok.mp h
  cases h
  have idles : s.net.Idles { s.net with observed } :=
    ⟨⟨rfl, rfl, fun _ => rfl, rfl, fun told => told⟩, .of_eq rfl, rfl⟩
  exact .of_chain (.single idles.step) id id rfl (DenseMap.size_set written) rfl rfl id

/-- Every call that is welcome takes the network through a chain of steps. -/
theorem perform_moves {call : Call} {fuel : Nat} {reply : Reply} (r : Ready g s)
    (w : Welcomes g s) (loose : ¬g.paced) (h : s.perform fuel call = .ok (s', reply)) :
    s.Moves s' := by
  have i := r.inv
  cases call with
  | newVar spec =>
      obtain ⟨⟨s₁, v⟩, added, h⟩ := bind_eq_ok.mp h
      cases h
      exact newVar_moves i.net.wf.watched.size added
  | varOfIndex j =>
      obtain ⟨⟨s₁, v⟩, added, h⟩ := bind_eq_ok.mp h
      cases h
      exact varOfIndex_moves r added
  | addClause d =>
      obtain ⟨⟨s₁, answer, left⟩, added, h⟩ := bind_eq_ok.mp h
      cases h
      exact addClauseReporting_moves i.net.wf.core i.covers added
  | load strict bs =>
      obtain ⟨⟨s₁, error⟩, loaded, h⟩ := bind_eq_ok.mp h
      cases h
      exact load_moves r w loaded
  | solve =>
      obtain ⟨⟨s₁, answer⟩, solved, h⟩ := bind_eq_ok.mp h
      cases h
      exact solve_moves r loose solved
  | simplify =>
      obtain ⟨⟨s₁, answer⟩, simplified, h⟩ := bind_eq_ok.mp h
      cases h
      have root : s.level = 0 := by
        by_contra high
        unfold Solver.simplify at simplified
        rw [if_neg high] at simplified
        cases simplified
      exact simplify_moves (r.idle root ▸ i) simplified
  | propagate =>
      obtain ⟨⟨s₁, answer⟩, propagated, h⟩ := bind_eq_ok.mp h
      cases h
      exact propagate_moves i.net.wf.core propagated
  | resolveConflict =>
      obtain ⟨⟨s₁, answer⟩, resolved, h⟩ := bind_eq_ok.mp h
      cases h
      exact resolveConflict_moves i resolved
  | decide l =>
      obtain ⟨s₁, decided, h⟩ := bind_eq_ok.mp h
      cases h
      exact decide_moves decided
  | pushLevel =>
      cases h
      exact pushLevel_moves s
  | cancelUntil k =>
      obtain ⟨s₁, cancelled, h⟩ := bind_eq_ok.mp h
      cases h
      exact cancelUntil_moves i.net.wf.trail i.covers cancelled
  | setReliable v b =>
      obtain ⟨s₁, changed, h⟩ := bind_eq_ok.mp h
      cases h
      exact setReliable_moves changed
  | setDecision v b =>
      obtain ⟨s₁, changed, h⟩ := bind_eq_ok.mp h
      cases h
      exact setDecision_moves changed
  | setObserved v b =>
      obtain ⟨s₁, changed, h⟩ := bind_eq_ok.mp h
      cases h
      exact setObserved_moves changed
  | setBudget b =>
      cases h
      exact .of_eq rfl id id rfl rfl id
  | setInterrupt b =>
      cases h
      exact .of_eq rfl id id rfl rfl id
  | setStop answer =>
      cases h
      exact .of_eq rfl id id rfl rfl id

/-- In a run without conditions every call is welcome. -/
theorem moves_of_standing {calls : List Call} {call : Call} {fuel : Nat} {reply : Reply}
    (r : Ready (regimeOf calls False False fun _ => True) s)
    (h : s.perform fuel call = .ok (s', reply)) : s.Moves s' :=
  perform_moves r (.inr ⟨fun on => on, fun _ => trivial⟩) (fun on => on) h

variable {options : Options} {allowed : Solver → Call → Prop} {calls : List Call}

/-- A fresh solver has no clauses and no variables, so that everything agrees. -/
theorem sane_create {listening : Bool} {threshold : Option Severity} {outside : Outside}
    (h : create options listening threshold outside = .ok s) : s.Sane := by
  unfold create at h
  split at h
  · cases h
    exact ⟨View.sturdy_empty _, ⟨rfl, rfl, rfl, Order.spans_empty _⟩,
      ⟨Nat.le_refl _, Nat.le_refl _, Nat.le_refl _⟩, by simp [Flags.isClear, DenseMap.empty]⟩
  · cases h

/-- The parts of a solver fit together in every state that calls lead to, and no variable is
marked there. -/
theorem Reaches.sane (run : Reaches options allowed calls s) : s.Sane := by
  induction run with
  | fresh created => exact sane_create created
  | call before _ performed ih =>
      have ready := before.standing
      exact ih.moves ready.inv.core (moves_of_standing ready performed)

end Cdcl.Solver
