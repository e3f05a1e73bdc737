import Cdcl.Proofs.Models
import Cdcl.Proofs.Success.Levels

/-!
# Learning without a fault

The clause that the analysis names can be stored at the level that it names, where its
first literal has no value yet.

* `Taught.free` — the asserting literal loses its value with the levels;
* `assertLesson_sane`, `learn_sane`, `resolveConflict_sane` — the operations.
-/

namespace Cdcl.Solver

open Network (Regime)

variable {g : Regime} {e : Fault → Prop} {s s' : Solver} {l : Lesson}
  {conflict : Option ClauseId}

/-- A literal of an existing variable that is assigned in neither sign has no value. -/
theorem litValue_unassigned {t : Trail} {p : Lit} (w : t.WF) (inside : p.var.index < t.numVars)
    (pos : p ∉ t.lits) (neg : -p ∉ t.lits) : t.litValue p = .ok .unknown :=
  Trail.litValue_eq_ok.mpr ⟨_, w.unassigned inside pos neg, Truth.flipIf_eq_unknown.mpr rfl⟩

/-- The literals of a lesson are of variables that exist. -/
theorem Taught.index_lt (t : Taught g s l) (w : s.net.trail.WF) :
    ∀ q ∈ l.asserting :: l.others, q.var.index < s.numVars := by
  intro q hq
  have low : (-q).var.index < s.numVars := w.index_lt (t.false_ q hq)
  exact low

/-- The asserting literal is false above the level of the lesson only. -/
theorem Taught.free {t' : Trail} (t : Taught g s l) (w : s.net.trail.WF)
    (c : s.net.trail.CutBack l.level t') : t'.litValue l.asserting = .ok .unknown := by
  have false_ := t.false_ l.asserting List.mem_cons_self
  obtain ⟨k, level, above⟩ := t.above
  refine litValue_unassigned (c.wf w) ?_ (fun true_ => ?_) fun still => ?_
  · exact Nat.lt_of_lt_of_eq (t.index_lt w _ List.mem_cons_self) c.sizes.symm
  · have inside := Trail.mem_of_mem_upTo (c.mem_iff.mp true_)
    exact w.not_both inside false_
  · have low := (w.mem_upTo_iff false_ level).mp (c.mem_iff.mp still)
    omega

/-- A lesson can be stored, and its asserting literal assigned. -/
theorem failsOnly_assertLesson (excused : ∀ f : Fault, f.Excused → e f)
    (i : s.Inv g conflict none) (x : s.Sane) (t : Taught g s l)
    (single : l.others = [] → l.level = 0) : FailsOnly e (s.assertLesson l) := by
  have w := i.core.trail
  have logged : (s.log (.learnt (l.asserting :: l.others) l.level)).Inv g conflict none :=
    i.log fun c same on => by
      cases same
      exact t.entails on
  have x₀ := x.moves i.core (log_moves s (.learnt (l.asserting :: l.others) l.level))
  have cancels := cancelUntil_sane (k := l.level) (excused _ trivial) logged x₀
  refine .bind cancels.failsOnly fun s₁ cancelled => ?_
  have x₁ := cancels.holds s₁ cancelled
  rcases cancelUntil_cases logged.core.trail logged.covers cancelled with ⟨high, -⟩ | ⟨-, back⟩
  · exact absurd (t.lower w) (Nat.not_lt_of_le high)
  have wf₁ : s₁.net.WF s₁.net.Lists := back.net.lists_eq ▸ back.net.wf logged.net.wf
  have z₁ := x₁.sized wf₁
  have free := t.free w back.net.trail
  have known : ∀ q ∈ l.asserting :: l.others, q.var.index < s₁.numVars := by
    have vars : s₁.numVars = s.numVars := back.net.trail.sizes
    rw [vars]
    exact t.index_lt w
  have once := t.once
  cases others : l.others with
  | nil =>
      refine .bind (.ensure (decide_eq_true (single others))) fun _ _ => ?_
      exact failsOnly_updateNet (Network.failsOnly_enqueue wf₁.trail z₁ free)
  | cons q rest =>
      rw [others] at known once
      refine .bind (Network.failsOnly_addClause (excused _ trivial) z₁ (by simp) known)
        fun ⟨n₁, id⟩ added => ?_
      obtain ⟨c, lits, kind, stores⟩ := Network.stores added
      have moved := addClause_moves once known added
      have sturdy₁ : n₁.view.Sturdy := moved.chain.sturdy wf₁.core x₁.sturdy
      refine .bind (Network.failsOnly_bumpClause sturdy₁.indexed stores.body_new kind)
        fun n₂ bumped => ?_
      have idles := Network.idles_bumpClause bumped
      have stored₂ : n₂.body? id = some c := by rw [idles.body, stores.body_new]
      refine .bind (Network.failsOnly_clause stored₂) fun c' _ => ?_
      have trail : n₂.trail = s₁.net.trail := idles.trail.trans stores.trail
      have observed : n₂.observed = s₁.net.observed :=
        (Network.observed_bumpClause bumped).trans (Network.observed_addClause added)
      have z₂ : n₂.Sized := by
        refine ⟨?_, by rw [observed, trail]; exact z₁.observed⟩
        rw [idles.watches, stores.size, trail]
        exact z₁.watches
      exact .bind (Network.failsOnly_enqueue (trail ▸ wf₁.trail) z₂ (trail ▸ free)) fun _ _ => .ok _

theorem assertLesson_sane (excused : ∀ f : Fault, f.Excused → e f)
    (i : s.Inv g conflict none) (x : s.Sane) (t : Taught g s l)
    (single : l.others = [] → l.level = 0) : Gives e Sane (s.assertLesson l) where
  failsOnly := failsOnly_assertLesson excused i x t single
  holds _ h := x.moves i.core (assertLesson_moves i t h)

/-- A conflict that follows from the root level can be recorded. -/
theorem assertRootConflict_sane (excused : ∀ f : Fault, f.Excused → e f)
    (i : s.Inv g conflict none) (x : s.Sane) (refuted : g.sound → Unsatisfiable g.formula) :
    Gives e Sane s.assertRootConflict := by
  have logged : (s.log (.learnt [] 0)).Inv g conflict none :=
    i.log fun c same on => by
      cases same
      exact unsatisfiable_iff_entails_nil.mp (refuted on)
  have x₀ := x.moves i.core (log_moves s (.learnt [] 0))
  refine .step (cancelUntil_sane (excused _ trivial) logged x₀) fun s₁ _ x₁ => .ok ?_
  exact x₁.congr rfl rfl rfl rfl fun c => c

/-- The analysis of a clause that is false fails only with an excused fault. -/
theorem analyze_sane {id : ClauseId} (excused : ∀ f : Fault, f.Excused → e f) (on : g.sound)
    (i : s.Inv g (some id) none) (x : s.Sane) : Gives e (fun r => r.1.Sane) (s.analyze id) := by
  have poised : Poised g s := ⟨i.footing, i.core, x.sturdy, x.fitted⟩
  exact ⟨failsOnly_analyze (excused _ trivial) on poised i.rejects x.clear,
    fun _ h => x.moves i.core (analyze_moves i.footing i.rejects h)⟩

theorem Sane.decayActivities (x : s.Sane) (core : s.net.Core) : s.decayActivities.Sane :=
  x.moves core (decayActivities_moves s)

/-- What a conflict teaches can be learnt. -/
theorem learn_sane {id : ClauseId} (excused : ∀ f : Fault, f.Excused → e f) (on : g.sound)
    (i : s.Inv g (some id) none) (x : s.Sane) : Gives e Sane (s.learn id) := by
  refine .step (analyze_sane excused on i x) fun ⟨s₁, result⟩ analyzed x₁ => ?_
  obtain ⟨k, concludes⟩ := analyze_taught i.footing i.rejects analyzed
  have i₁ := k.inv i
  cases result with
  | none =>
      refine .step (assertRootConflict_sane excused i₁ x₁ concludes) fun s₂ asserted x₂ => .ok ?_
      have moved := assertRootConflict_moves i₁.core.trail i₁.covers asserted
      exact x₂.decayActivities (moved.core i₁.core)
  | some l =>
      have t : Taught g s₁ l := concludes
      refine .step (assertLesson_sane excused i₁ x₁ t (analyze_unit analyzed)) fun s₂ asserted x₂ =>
        .ok ?_
      exact x₂.decayActivities ((assertLesson_moves i₁ t asserted).core i₁.core)

/-- A conflict is pending above the root level only. -/
theorem resolveConflict_sane (excused : ∀ f : Fault, f.Excused → e f) (on : g.sound)
    (r : Ready g s) (x : s.Sane) : Gives e (fun r => r.1.Sane) s.resolveConflict := by
  have i := r.inv
  unfold Solver.resolveConflict
  cases pending : s.pending with
  | none => exact .ok x
  | some id =>
      have high : 0 < s.level := by
        refine Nat.pos_of_ne_zero fun root => ?_
        cases pending.symm.trans (r.idle root)
      rw [pending] at i
      refine .bind (.ensure (decide_eq_true high)) fun _ _ => ?_
      have i₁ : ({ s with pending := none }.countConflict).Inv g (some id) none :=
        ⟨i.net, i.refutes, i.covers, i.refuted⟩
      have x₁ : ({ s with pending := none }.countConflict).Sane :=
        x.congr rfl rfl rfl rfl (countConflict_moves s).counted
      exact .step (learn_sane excused on i₁ x₁) fun s₂ _ x₂ => .ok x₂

end Cdcl.Solver
