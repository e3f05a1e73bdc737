import Cdcl.Proofs.Inserting
import Cdcl.Proofs.Success.Intake

/-!
# Adding a clause above the root level without a fault

The level to go back to lies above the root, since no literal that is kept is false there, and
at the level where the clause implies its first literal this has no value.

* `Lands.free` — the first literal has none after going back;
* `failsOnly_insertArranged`, `failsOnly_addAboveRoot` — the operations;
* `Reaches.failsOnly_addClause` — adding a clause at any level of a run.
-/

namespace Cdcl

namespace Network

theorem Sized.addClause {n n' : Network} {lits : List Lit} {learnt : Bool} {id : ClauseId}
    (z : n.Sized) (h : n.addClause lits learnt = .ok (n', id)) : n'.Sized := by
  obtain ⟨c, -, -, stores⟩ := stores h
  exact ⟨by rw [stores.size, stores.trail, z.watches],
    by rw [observed_addClause h, stores.trail, z.observed]⟩

end Network

namespace Solver

open Network (Regime)

variable {g : Regime} {e : Fault → Prop} {s s₁ : Solver} {k : Nat} {c d : List Lit}
  {a b : Ranked} {rest : List Ranked}

/-- A literal without a value has none after going back, nor has one that was assigned
later. -/
theorem Lands.free {l : Lit} (w : s.net.trail.WF) (r : s.Lands k s₁)
    (low : l.var.index < s.numVars)
    (late : s.litValue l = .ok .unknown ∨ ∃ j, s.net.trail.levelOf l.var = .ok j ∧ k < j) :
    s₁.litValue l = .ok .unknown := by
  have gone : ∀ m : Lit, m.var = l.var → m ∉ s₁.net.trail.lits := by
    intro m same inside
    have before := r.mem.mp inside
    have true_ := Trail.mem_of_mem_upTo before
    rcases late with unknown | ⟨j, level, above⟩
    · obtain ⟨pos, neg⟩ := w.unknown unknown
      rcases Lit.eq_or_eq_neg same with rfl | rfl
      · exact pos true_
      · exact neg true_
    · have early := (w.mem_upTo_iff true_ (same ▸ level)).mp before
      omega
  exact litValue_unassigned r.wf (Nat.lt_of_lt_of_eq low r.vars.symm) (gone l rfl) (gone (-l) rfl)

/-- However far the solver has to go back, the clause can be stored and its first literal
assigned. -/
theorem failsOnly_insertArranged (excused : ∀ f : Fault, f.Excused → e f)
    (i : s.Inv g s.pending none) (x : s.Sane) (open_ : ∀ l ∈ c, -l ∉ s.net.trail.upTo 0)
    (known : ∀ l ∈ c, l.var.index < s.numVars)
    (arr : Arranged s.net.trail c (a :: b :: rest)) :
    FailsOnly e (s.insertArranged a b ((a :: b :: rest).map (·.lit))) := by
  have w := i.core.trail
  have first : a.lit.var.index < s.numVars :=
    known a.lit (arr.perm.mem_iff.mp (List.mem_map_of_mem List.mem_cons_self))
  have known : ∀ l ∈ (a :: b :: rest).map (·.lit), l.var.index < s.numVars := fun l hl =>
    known l (arr.perm.mem_iff.mp hl)
  have second : b ∈ a :: b :: rest := List.mem_cons_of_mem a List.mem_cons_self
  have two : 2 ≤ ((a :: b :: rest).map (·.lit)).length := by simp
  -- the levels above one that is not above the current one can be undone before storing
  have cancels : ∀ {k}, FailsOnly e (s.cancelUntil k) :=
    (cancelUntil_sane (excused _ trivial) i x).failsOnly
  have lands : ∀ {k s₁}, k ≤ s.level → s.cancelUntil k = .ok s₁ → s.Lands k s₁ ∧ s₁.net.Sized ∧
      FailsOnly e (s₁.net.addClause ((a :: b :: rest).map (·.lit)) false) := by
    intro k s₁ low cancelled
    have landed := lands_cancelUntil w i.covers low cancelled
    have x₁ := (cancelUntil_sane (excused _ trivial) i x).holds s₁ cancelled
    have z₁ := x₁.sized (i.unpaced.retreats (fun on => on.1.elim) cancelled).inv.net.wf
    have known₁ : ∀ l ∈ (a :: b :: rest).map (·.lit), l.var.index < s₁.numVars := by
      rw [landed.vars]
      exact known
    exact ⟨landed, z₁, Network.failsOnly_addClause (excused _ trivial) z₁ two known₁⟩
  unfold insertArranged
  split
  next =>
    exact .bind (Network.failsOnly_addClause (excused _ trivial) (x.sized i.net.wf) two known)
      fun _ _ => .ok _
  next m below =>
    obtain ⟨-, false_, -, here⟩ := Retreat.of_below below
    have high : 0 < m := here ▸ arr.deep w open_ second false_
    have low : m ≤ s.level := here ▸ arr.level_le w false_
    refine .bind (.checkedSub high) fun k counted => .bind cancels fun s₁ cancelled => ?_
    have counted : m = 1 + k := checkedSub_eq_ok.mp counted
    obtain ⟨-, -, stores⟩ := lands (by omega) cancelled
    exact .bind stores fun _ _ => .ok _
  next k asserts =>
    obtain ⟨false_, here, late⟩ := Retreat.of_assertAt asserts
    refine .bind cancels fun s₁ cancelled => ?_
    obtain ⟨landed, z₁, stores⟩ := lands (here ▸ arr.level_le w false_) cancelled
    refine .bind stores fun ⟨n, id⟩ added => ?_
    obtain ⟨_, -, -, stores⟩ := Network.stores added
    refine .bind (Network.failsOnly_clause stores.body_new) fun _ _ => ?_
    have free : s₁.litValue a.lit = .ok .unknown := by
      refine landed.free w first (late.imp (fun unknown => ?_) fun above => ?_)
      · exact unknown ▸ arr.value a List.mem_cons_self
      · exact ⟨a.level, arr.level a List.mem_cons_self, above⟩
    refine .bind (Network.failsOnly_enqueue ?_ (z₁.addClause added) ?_) fun _ _ => .ok _
    · exact stores.trail ▸ landed.wf
    · exact stores.trail ▸ free

/-- The literals of existing variables can be ranked. -/
theorem failsOnly_arrange {t : Trail} (w : t.WF) (known : ∀ l ∈ c, l.var.index < t.numVars) :
    FailsOnly e (arrange t c) := by
  refine .bind (.mapM fun l hl => ?_) fun _ _ => .ok _
  refine .bind (Trail.failsOnly_litValue (known l hl)) fun _ _ => ?_
  exact .bind (Trail.failsOnly_levelOf w (known l hl)) fun _ _ => .ok _

/-- Of a clause of two literals or more there are two to be watched. -/
theorem Arranged.first_two {t : Trail} {rs : List Ranked} (arr : Arranged t c rs)
    (two : 2 ≤ c.length) : ∃ a b rest, rs = a :: b :: rest := by
  have length : rs.length = c.length := (List.length_map _).symm.trans arr.perm.length_eq
  match rs, length with
  | [], length => simp only [List.length_nil] at length; omega
  | [_], length => simp only [List.length_singleton] at length; omega
  | a :: b :: rest, _ => exact ⟨a, b, rest, rfl⟩

/-- A clause over the variables of the solver is added above the root level without a
fault. -/
theorem failsOnly_addAboveRoot (excused : ∀ f : Fault, f.Excused → e f)
    (i : s.Inv g s.pending none) (unsound : ¬g.sound) (deep : 0 < s.level) (x : s.Sane)
    (known : ∀ l ∈ d, l.var.index < s.numVars) : FailsOnly e (s.addAboveRoot d) := by
  have w := i.core.trail
  have knownSorted : ∀ l ∈ Lit.sort d, l.var.index < s.numVars := fun l hl =>
    known l ((sort_perm d).mem_iff.mp hl)
  refine .bind (failsOnly_normalizeFrom w knownSorted) fun normal normalized => ?_
  have spec := normalize_spec w normalized
  split
  next => exact .ok _
  next => exact .ok _
  next l =>
    have kept : Kept s.net.trail d [l] := spec
    have cancels := cancelUntil_sane (k := 0) (excused _ trivial) i x
    refine .bind cancels.failsOnly fun s₁ cancelled => ?_
    have landed := lands_cancelUntil w i.covers (Nat.zero_le _) cancelled
    have back := i.unpaced.retreats (fun on => on.1.elim) cancelled
    have idle : s₁.pending = none :=
      back.descends.idle (fun zero => absurd zero (Nat.ne_of_gt deep)) landed.level
    have i₁ := back.inv
    rw [idle] at i₁
    have free : s₁.litValue l = .ok .unknown := by
      have open_ := open_of_normalizeFrom normalized (by simp) l (by simp)
      refine litValue_unassigned landed.wf ?_ (fun true_ => ?_) fun false_ => ?_
      · exact Nat.lt_of_lt_of_eq (index_lt_of_rootValue open_) landed.vars.symm
      · rw [(rootValue_holds_iff w).mpr (landed.mem.mp true_)] at open_
        cases open_
      · exact kept.free l (by simp) (landed.mem.mp false_)
    have x₁ := cancels.holds s₁ cancelled
    refine .bind (assertUnit_sane i₁ x₁ landed.level ?_ free).failsOnly fun _ _ => .ok _
    exact fun on => absurd on unsound
  next c none_ single =>
    have kept : Kept s.net.trail d c := spec
    have low := index_lt_of_normalize normalized
    refine .bind (failsOnly_arrange w low) fun rs arranged => ?_
    have arr := arrange_spec arranged
    have two : 2 ≤ c.length := by
      obtain ⟨p, q, others, rfl⟩ := exists_two none_ single
      exact Nat.le_add_left 2 _
    obtain ⟨a, b, rest, rfl⟩ := arr.first_two two
    exact .bind (failsOnly_insertArranged excused i x kept.free low arr) fun _ _ => .ok _

/-- A clause over the variables of the solver is added at any level without a fault, where
the clauses that are stored need not follow from anything. -/
theorem failsOnly_addClauseReporting (excused : ∀ f : Fault, f.Excused → e f) (r : Ready g s)
    (unsound : ¬g.sound) (x : s.Sane) (known : ∀ l ∈ d, l.var.index < s.numVars) :
    FailsOnly e (s.addClauseReporting d) := by
  by_cases root : s.level = 0
  · exact (addClause_sane excused r x root known).failsOnly
  refine .ite (fun _ => .ok _) fun _ => ?_
  rw [if_neg root]
  have logged := (kin_log (m := .addAtLevel d s.level) rfl s).inv r.inv
  have x₀ := x.moves r.inv.core (log_moves s (.addAtLevel d s.level))
  exact failsOnly_addAboveRoot excused logged unsound (Nat.pos_of_ne_zero root) x₀ known

/-- In a run, a clause over the variables of the solver is added at any level without a
fault. -/
theorem Reaches.failsOnly_addClause {options : Options} {allowed : Solver → Call → Prop}
    {calls : List Call} (run : Reaches options allowed calls s)
    (excused : ∀ f : Fault, f.Excused → e f) (known : ∀ l ∈ d, l.var.index < s.numVars) :
    FailsOnly e (s.addClauseReporting d) :=
  failsOnly_addClauseReporting excused run.standing (fun on => on) run.sane known

end Solver

end Cdcl
