import Cdcl.Solver.Learning
import Cdcl.Proofs.Shortening

/-!
# Learning

What learning from a conflict comes to.  The solver goes back to the level that the
analysis names, and so below the conflict; the clause that it stores there implies its
first literal.  If the conflict follows from the root level, the clauses are
unsatisfiable.

The level that it goes back to has to be settled: a clause that was false there
when the level was left would be missed from then on.
-/

namespace Cdcl.Solver

open Network (Regime)

variable {g : Regime} {s s' : Solver} {k : Nat} {l : Lesson}

/-- What is taught lies at the level to go back to or below, but for the asserting
literal. -/
theorem Taught.after {t' : Trail} (t : Taught g s l) (w : s.net.trail.WF)
    (c : s.net.trail.CutBack l.level t') : (∀ q ∈ l.others, -q ∈ t'.lits) ∧
      ∀ q, l.others.head? = some q → ∀ j, j < l.level → -q ∉ t'.upTo j := by
  have low : ∀ q ∈ l.others, -q ∈ t'.lits := by
    intro q hq
    have false_ := t.false_ q (List.mem_cons_of_mem _ hq)
    obtain ⟨j, levelOf, -, le⟩ := t.below q hq
    exact c.mem_iff.mpr ((w.mem_upTo_iff false_ levelOf).mpr le)
  refine ⟨low, fun q head j lt inside => ?_⟩
  have hq : q ∈ l.others := List.mem_of_mem_head? head
  have false_ := t.false_ q (List.mem_cons_of_mem _ hq)
  rw [c.upTo w, Nat.min_eq_left (Nat.le_of_lt lt)] at inside
  have le := (w.mem_upTo_iff false_ (t.head q head)).mp inside
  omega

/-- The level to go back to is below the current one. -/
theorem Taught.lower (t : Taught g s l) (w : s.net.trail.WF) : l.level < s.level := by
  obtain ⟨k, levelOf, lt⟩ := t.above
  have false_ := t.false_ l.asserting List.mem_cons_self
  exact Nat.lt_of_lt_of_le lt (w.levelOf_le false_ levelOf)

theorem Inv.assertLesson {conflict : Option ClauseId} (i : s.Inv g conflict none)
    (t : Taught g s l) (settled : (g.during s.ok).paced → g.settled l.level)
    (h : s.assertLesson l = .ok s') : s'.Inv g none none ∧ s'.pending = none ∧
      s'.level = l.level ∧ s'.ok = s.ok := by
  obtain ⟨s₁, cancelled, h⟩ := bind_eq_ok.mp h
  have w := i.net.wf.trail
  have told := i.log (m := .learnt (l.asserting :: l.others) l.level) fun c same on => by
    cases same
    exact t.entails on
  rcases told.cancelUntil (fun on _ => settled on) cancelled with ⟨high, -⟩ | ⟨-, back, inv⟩
  · exact absurd (t.lower w) (Nat.not_lt_of_le high)
  · have level : s₁.net.trail.level = l.level := back.level
    obtain ⟨false_, late⟩ := t.after w back.net.trail
    have once := t.once
    have entails := t.entails
    cases others : l.others with
    | nil =>
        rw [others] at h entails
        obtain ⟨_, root, h⟩ := bind_eq_ok.mp h
        obtain ⟨n, assigned, rfl⟩ := updateNet_eq_ok.mp h
        have root : s₁.level = 0 := level.trans (by simpa using ensure_eq_ok.mp root)
        obtain ⟨inv', same⟩ := inv.enqueueFact root entails (Network.enqueued assigned)
        exact ⟨inv', back.pending, same.trans level, back.ok⟩
    | cons q rest =>
        rw [others] at h entails once false_ late
        obtain ⟨⟨n₁, id⟩, added, h⟩ := bind_eq_ok.mp h
        obtain ⟨n₂, bumped, h⟩ := bind_eq_ok.mp h
        obtain ⟨c', read, h⟩ := bind_eq_ok.mp h
        obtain ⟨n, assigned, h⟩ := bind_eq_ok.mp h
        cases h
        obtain ⟨c, lits, -, stores⟩ := Network.stores added
        have alike := Network.alike_bumpClause bumped
        have e := Network.enqueued assigned
        have here : n₂.body? id = some c'.body := Arena.body?_of_get read
        rw [alike.body, stores.body_new] at here
        cases here
        have lits : c'.lits = l.asserting :: q :: rest := lits
        obtain ⟨first, second, premises⟩ := Network.parts_of_lits lits
        rw [← first] at e
        obtain ⟨inv', same⟩ := inv.storeImplying stores alike e (lits ▸ once)
          (fun on => lits ▸ entails on) (fun _ => premises ▸ false_)
          (fun p hp => ⟨-p, false_ p (premises ▸ hp), rfl⟩)
          (fun _ j low _ => second ▸ late q rfl j (level ▸ low))
        exact ⟨inv', back.pending, same.trans level, back.ok⟩

/-- A conflict that follows from the root level. -/
theorem Inv.assertRootConflict {conflict : Option ClauseId} (i : s.Inv g conflict none)
    (high : 0 < s.level) (refuted : g.sound → Unsatisfiable g.formula)
    (h : s.assertRootConflict = .ok s') :
    s'.Inv g none none ∧ s'.pending = none ∧ s'.level = 0 ∧ s'.ok = false := by
  obtain ⟨s₁, cancelled, h⟩ := bind_eq_ok.mp h
  cases h
  have told := i.log (m := .learnt [] 0) fun c same on => by
    cases same
    exact unsatisfiable_iff_entails_nil.mp (refuted on)
  have w := i.net.wf.trail
  rcases cancelUntil_cases told.net.wf.trail told.covers cancelled with ⟨low, -⟩ | ⟨-, back⟩
  · exact absurd high (Nat.not_lt_of_le low)
  · have failed := told.fail refuted (.inl rfl)
    have back' : { s.log (.learnt [] 0) with ok := false }.Back 0 { s₁ with ok := false } :=
      ⟨back.net, back.covers, back.eligible, rfl, back.pending, back.model⟩
    exact ⟨back'.inv failed fun on => absurd on.2 (by simp), back.pending, back.level, rfl⟩

/-- What learning from a conflict comes to. -/
structure Learns (g : Regime) (s s' : Solver) : Prop where
  inv : s'.Inv g none none
  pending : s'.pending = none
  lower : s'.level < s.level

theorem kin_decayActivities (s : Solver) : s.Kin s.decayActivities :=
  ⟨⟨rfl, rfl, fun _ => rfl, rfl, fun h => h⟩, fun c => c.congr rfl rfl, rfl, rfl⟩

theorem Inv.learn {id : ClauseId} (i : s.Inv g (some id) none) (high : 0 < s.level)
    (settled : g.paced → s'.ok = true → s'.level < s.level → g.settled s'.level)
    (h : s.learn id = .ok s') : Learns g s s' := by
  obtain ⟨⟨s₁, result⟩, analyzed, h⟩ := bind_eq_ok.mp h
  obtain ⟨k, concludes⟩ := analyze_taught i.footing i.rejects analyzed
  have i₁ := k.inv i
  cases result with
  | none =>
      obtain ⟨s₂, asserted, h⟩ := bind_eq_ok.mp h
      cases h
      have high₁ : 0 < s₁.level := k.level ▸ high
      obtain ⟨inv, pending, level, -⟩ := i₁.assertRootConflict high₁ concludes asserted
      have low : s₂.level < s.level := level ▸ high
      exact ⟨(kin_decayActivities s₂).inv inv, pending, low⟩
  | some l =>
      obtain ⟨s₂, asserted, h⟩ := bind_eq_ok.mp h
      cases h
      have t : Taught g s₁ l := concludes
      have lower : l.level < s.level := k.level ▸ t.lower i₁.net.wf.trail
      -- which level it is does not depend on whether that level is settled
      have loose : Taught { g with paced := False } s₁ l :=
        ⟨t.once, t.false_, t.above, t.below, t.head, t.entails⟩
      obtain ⟨-, pending, level, ok⟩ := i₁.unpaced.assertLesson loose (fun on => on.1.elim) asserted
      have settled : (g.during s₁.ok).paced → g.settled l.level := by
        intro on
        have landed := settled on.1 (ok.trans on.2) (level ▸ lower)
        exact level ▸ landed
      obtain ⟨inv, -⟩ := i₁.assertLesson t settled asserted
      have kin := kin_decayActivities s₂
      exact ⟨kin.inv inv, pending, level ▸ lower⟩

/-- Nothing happens if no conflict is pending. -/
theorem Inv.resolveConflict {b : Bool} (i : s.Inv g s.pending none)
    (high : s.pending.isSome → 0 < s.level)
    (settled : g.paced → s'.ok = true → s'.level < s.level → g.settled s'.level)
    (h : s.resolveConflict = .ok (s', b)) :
    s'.Inv g none none ∧ s'.pending = none ∧ s'.level ≤ s.level ∧ b = s'.ok := by
  unfold Solver.resolveConflict at h
  cases pending : s.pending with
  | none =>
      rw [pending] at h i
      cases h
      exact ⟨i, pending, Nat.le_refl _, rfl⟩
  | some id =>
      rw [pending] at h i high
      obtain ⟨_, -, h⟩ := bind_eq_ok.mp h
      obtain ⟨s₁, learnt, h⟩ := bind_eq_ok.mp h
      cases h
      have counted : { s with pending := none }.countConflict.Inv g (some id) none :=
        ⟨i.net, i.refutes, i.covers, i.refuted⟩
      have learns := counted.learn (high rfl) settled learnt
      exact ⟨learns.inv, learns.pending, Nat.le_of_lt learns.lower, rfl⟩

end Cdcl.Solver
