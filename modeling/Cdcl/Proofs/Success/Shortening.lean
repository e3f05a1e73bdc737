import Cdcl.Proofs.Reliability
import Cdcl.Proofs.Success.Resolving

/-!
# Reworking the learnt clause without a fault

The replacing of unreliable literals ends: each step passes a literal or marks the
premises that come in its place, so the literals that are left and the variables without
a mark become fewer, `Absorbed.fewer`.  What it leaves is admissible in a learnt
clause, and everything that it marked is listed, so that all marks can be cleared.

* `failsOnly_replaceUnreliable`, `failsOnly_minimize`, `failsOnly_latestFirst` — the steps;
* `failsOnly_gather`, `failsOnly_compose`, `failsOnly_analyze` — the whole analysis.
-/

namespace Cdcl.Solver

open Network (Regime)

variable {g : Regime} {e : Fault → Prop} {s s' : Solver} {v : Var} {k : Nat}
  {raw others kept : List Lit} {lits lits' marked marked' : Array Lit}

/-! ## Marks -/

theorem unmarked_le (f : s.Fitted) : s.unmarked ≤ s.numVars := by
  have bound : s.unmarked ≤ s.seen.cells.toList.length := List.count_le_length
  rw [Array.length_toList] at bound
  exact Nat.le_trans bound (Nat.le_of_eq f.seen)

theorem Listed.index_lt (h : s.Listed others) (f : s.Fitted) {l : Lit} (inside : l ∈ others) :
    l.var.index < s.numVars := by
  have read : s.Marked l.var := (h l.var).mpr ⟨l, inside, rfl⟩
  exact Nat.lt_of_lt_of_eq (DenseMap.toIndex_lt read) f.seen

theorem failsOnly_clearMarks {ls : List Lit} (f : s.Fitted)
    (known : ∀ l ∈ ls, l.var.index < s.numVars) : FailsOnly e (s.clearMarks ls) := by
  induction ls generalizing s with
  | nil => exact .ok _
  | cons l ls ih =>
      refine .bind (failsOnly_unmark f (known l List.mem_cons_self)) fun s₁ unmarked => ?_
      have vars : s₁.numVars = s.numVars :=
        congrArg Trail.numVars (unmark_eq_ok unmarked).1.net.trail
      refine ih ((Tick.unmark unmarked).touches.fitted f) fun l' later => ?_
      rw [vars]
      exact known l' (List.mem_cons_of_mem l later)

/-! ## Replacing -/

theorem Placed.index_lt {t : Trail} {n : Nat} {l : Lit} (h : Placed t n l) (w : t.WF) :
    l.var.index < t.numVars := by
  obtain ⟨i, m, -, there, var⟩ := h
  exact var ▸ w.index_lt (Array.mem_of_getElem? there)

/-- The premises of a literal can be put in its place. -/
theorem failsOnly_absorbPremises {qs : List Lit} (nan : e .incomparableActivities)
    (w : s.net.trail.WF) (f : s.Fitted) (known : ∀ q ∈ qs, q.var.index < s.numVars) :
    FailsOnly e (s.absorbPremises lits marked qs) := by
  induction qs generalizing s lits marked with
  | nil => exact .ok _
  | cons q qs ih =>
      have low := known q List.mem_cons_self
      have later : ∀ q' ∈ qs, q'.var.index < s.numVars := fun q' hq =>
        known q' (List.mem_cons_of_mem q hq)
      refine .bind (failsOnly_seen f low) fun seen _ => ?_
      refine .bind (Trail.failsOnly_levelOf w low) fun level _ => ?_
      refine .ite (fun _ => ?_) fun _ => ih w f later
      refine .bind (failsOnly_mark f low) fun s₁ marked => ?_
      have t₁ := (Tick.mark marked).touches
      refine .bind (failsOnly_bumpVar nan (t₁.fitted f) (t₁.vars ▸ low)) fun s₂ bumped => ?_
      have ticks : s.Ticks s₂ := .head (.mark marked) (.single (.bump bumped))
      refine ih (ticks.kin.net.trail ▸ w) (ticks.touches.fitted f) fun q' hq => ?_
      rw [ticks.touches.vars]
      exact later q' hq

/-- Every step passes a literal over or marks a variable, so that there are steps enough. -/
theorem failsOnly_replaceUnreliable {fuel i : Nat} (nan : e .incomparableActivities)
    (b : Footing g s) (f : s.Fitted) (replacing : Replacing g s k raw lits.toList)
    (enough : s.unmarked + lits.size ≤ fuel + i) :
    FailsOnly e (replaceUnreliable fuel s lits marked i) := by
  induction fuel generalizing s lits marked i with
  | zero =>
      unfold replaceUnreliable
      split
      · exact .ok _
      next q there =>
        have inside := (Array.getElem?_eq_some_iff.mp there).1
        omega
  | succ fuel ih =>
      unfold replaceUnreliable
      split
      · exact .ok _
      next q there =>
        have hq : q ∈ lits.toList := Array.mem_toList_iff.mpr (Array.mem_of_getElem? there)
        obtain ⟨j, levelOf, -⟩ := replacing.level q hq
        have low : q.var.index < s.numVars := index_lt_of_levelOf b.trail levelOf
        refine .bind (Trail.failsOnly_reasonOf b.trail low) fun why origin => ?_
        refine .bind (failsOnly_isReliable f low) fun reliable tested => ?_
        refine .ite (fun _ => ih b f replacing (by omega)) fun unfit => ?_
        simp only [Bool.or_eq_true, decide_eq_true_eq, not_or, Bool.not_eq_true] at unfit
        obtain ⟨rfl, implied⟩ := unfit
        obtain ⟨n, m, ps, -, -, behind, placed, -⟩ := replacing.reason b hq origin implied
        have premises := Network.premises_of_behind behind
        refine .bind_ok premises ?_
        change FailsOnly e ((s.countReplaced q ps).absorbPremises _ _ _ >>= _)
        have k₁ : s.Kin (s.countReplaced q ps) := kin_countReplaced s q ps
        have f₁ := (countReplaced_touches s q ps).fitted f
        have known : ∀ l ∈ ps, l.var.index < (s.countReplaced q ps).numVars := fun l hl =>
          (placed l hl).index_lt b.trail
        refine .bind (failsOnly_absorbPremises nan (k₁.footing b).trail f₁ known)
          fun ⟨s₂, lits₂, marked₂⟩ absorbed => ?_
        obtain ⟨k₂, replacing₂⟩ :=
          replacing.absorb b ⟨there, origin, tested, implied, premises, absorbed⟩
        obtain ⟨new, a⟩ := absorbPremises_spec absorbed
        have f₂ := a.ticks.touches.fitted f₁
        have unmarked₁ : (s.countReplaced q ps).unmarked = s.unmarked := rfl
        have fewer := a.fewer
        have grown := a.size
        have size := (swapErase_perm there).length_eq
        rw [List.length_cons, Array.length_toList, Array.length_toList] at size
        refine ih (k₂.footing b) f₂ replacing₂ ?_
        omega

/-! ## Dropping literals -/

theorem failsOnly_anyUncovered {qs : List Lit} (p : Poised g s)
    (known : ∀ q ∈ qs, q.var.index < s.numVars) : FailsOnly e (s.anyUncovered qs) := by
  induction qs with
  | nil => exact .ok _
  | cons q qs ih =>
      have low := known q List.mem_cons_self
      refine .bind (failsOnly_seen p.fitted low) fun seen _ => ?_
      refine .bind (Trail.failsOnly_levelOf p.wf low) fun level _ => ?_
      exact .ite (fun _ => .ok _) fun _ => ih fun q' hq => known q' (List.mem_cons_of_mem q hq)

/-- The reasons of the literals can be looked up, as all of them are assigned. -/
theorem failsOnly_minimize (p : Poised g s) (replacing : Replacing g s k raw others) :
    FailsOnly e (s.minimize others) := by
  unfold minimize
  split
  · exact .ok _
  · refine .filterM fun l hl => ?_
    obtain ⟨j, levelOf, -⟩ := replacing.level l hl
    have low : l.var.index < s.numVars := index_lt_of_levelOf p.wf levelOf
    refine .bind (Trail.failsOnly_reasonOf p.wf low) fun why reasonOf => ?_
    have asks : why ≠ .decision → FailsOnly e (s.net.premises why >>= s.anyUncovered) := by
      intro ne
      obtain ⟨n, m, ps, -, -, behind, placed, -⟩ := replacing.reason p.footing hl reasonOf ne
      refine .bind_ok (Network.premises_of_behind behind) ?_
      exact failsOnly_anyUncovered p fun q hq => (placed q hq).index_lt p.wf
    cases why with
    | decision => exact .ok _
    | _ => exact asks (by simp)

/-! ## The level to go back to -/

theorem failsOnly_latest {t : Trail} {best level i : Nat} {ls : List Lit}
    (known : ∀ l ∈ ls, ∃ j, t.levelOf l.var = .ok j) : FailsOnly e (latest t best level i ls) := by
  induction ls generalizing best level i with
  | nil => exact .ok _
  | cons l ls ih =>
      obtain ⟨j, levelOf⟩ := known l List.mem_cons_self
      have later : ∀ l' ∈ ls, ∃ j, t.levelOf l'.var = .ok j := fun l' hl =>
        known l' (List.mem_cons_of_mem l hl)
      exact .bind_ok levelOf (.ite (fun _ => ih later) fun _ => ih later)

theorem failsOnly_latestFirst {t : Trail} (known : ∀ l ∈ others, ∃ j, t.levelOf l.var = .ok j) :
    FailsOnly e (latestFirst t others) := by
  cases others with
  | nil => exact .ok _
  | cons l ls =>
      obtain ⟨j, levelOf⟩ := known l List.mem_cons_self
      refine .bind_ok levelOf (.bind (failsOnly_latest fun l' hl => ?_) fun _ _ => .ok _)
      exact known l' (List.mem_cons_of_mem l hl)

/-! ## The whole analysis -/

/-- The test of a lesson succeeds on literals that all have the value. -/
theorem allHave_of {t : Trail} {x : Truth} {ls : List Lit}
    (h : ∀ l ∈ ls, t.litValue l = .ok x) : allHave t x ls = .ok true := by
  induction ls with
  | nil => rfl
  | cons l ls ih =>
      refine bind_eq_ok.mpr ⟨x, h l List.mem_cons_self, ?_⟩
      rw [if_pos rfl]
      exact ih fun l' hl => h l' (List.mem_cons_of_mem l hl)

theorem failsOnly_gather {id : ClauseId} (nan : e .incomparableActivities) (p : Poised g s)
    (rejects : Rejects g s id) (clear : Flags.isClear s.seen = true) :
    FailsOnly e (s.gather id) := by
  have ⟨c, stored, _⟩ := rejects
  refine .bind (.ensure clear) fun _ _ => ?_
  refine .bind (Arena.failsOnly_stored (Network.contains_of_body? stored)) fun place _ => ?_
  have k₀ : s.Kin (s.log (.analyze place.place s.level)) := kin_log rfl _
  have p₀ := p.after k₀ (log_moves _ _).toShifts
  refine .bind (failsOnly_resolve nan p₀ rejects clear) fun ⟨s₁, resolved⟩ resolving => ?_
  cases resolved with
  | none => exact .ok _
  | some answer =>
      obtain ⟨l, others⟩ := answer
      obtain ⟨k₁, ends⟩ := resolve_resolved p₀.footing rejects clear resolving
      have ends : Resolved g s₁ l others := ends
      refine .bind_ok ((p₀.ticks (resolve_ticks resolving)).wf.holds_iff.mpr ends.mem) ?_
      exact .bind (.ensure rfl) fun _ _ => .ok _

/-- What has been gathered, with everything that the steps after it rely on. -/
theorem Poised.gather {id : ClauseId} {q : Lit} (p : Poised g s) (rejects : Rejects g s id)
    (h : s.gather id = .ok (s', some (q, others))) : Poised g s' ∧ Resolved g s' q others := by
  obtain ⟨entry, clear, -, resolving, -⟩ := gather_eq_ok h
  have k₀ : s.Kin (s.log (.analyze entry.place s.level)) := kin_log rfl _
  have p₀ := p.after k₀ (log_moves _ _).toShifts
  exact ⟨p₀.ticks (resolve_ticks resolving), (resolve_resolved p₀.footing rejects clear resolving).2⟩

theorem failsOnly_compose {l : Lit} (nan : e .incomparableActivities) (on : g.sound)
    (p : Poised g s) (ends : Resolved g s l others) :
    FailsOnly e (compose (s, some (l, others))) := by
  obtain ⟨j, levelL, positive, lower⟩ := ends.level
  have replacing := ends.replacing lower
  have enough : s.unmarked + others.toArray.size ≤ others.length + s.numVars + 0 := by
    have bound := unmarked_le p.fitted
    rw [List.size_toArray]
    omega
  refine .bind (failsOnly_replaceUnreliable nan p.footing p.fitted replacing enough)
    fun ⟨s₂, lits, marked⟩ replaced => ?_
  obtain ⟨k₂, replacing₂⟩ := replaceUnreliable_replacing p.footing replaced replacing
  obtain ⟨-, -, listed⟩ := replaceUnreliable_admissible replaced
  have p₂ := p.after k₂ (replaceUnreliable_touches replaced).toShifts
  refine .bind (failsOnly_minimize p₂ replacing₂) fun kept minimized => ?_
  obtain ⟨sub, -⟩ := minimize_covered p₂.footing replacing₂ minimized
  have known : ∀ q ∈ kept, ∃ j, s₂.net.trail.levelOf q.var = .ok j := fun q hq =>
    (replacing₂.level q (sub.mem hq)).imp fun _ level => level.1
  refine .bind (failsOnly_latestFirst known) fun ⟨final, level⟩ arranged => ?_
  obtain ⟨perm, -⟩ := latestFirst_spec arranged
  have m₃ := countLiterals_moves s₂ (minimize_sublist minimized).length_le
  have k₃ : s₂.Kin (s₂.countLiterals lits.size kept.length) := kin_of_eq rfl rfl rfl rfl
  have marks₃ : (s₂.countLiterals lits.size kept.length).Listed marked.toList :=
    listed ends.marked
  have p₃ := p₂.after k₃ m₃.toShifts
  refine .bind (failsOnly_clearMarks p₃.fitted fun q hq => marks₃.index_lt p₃.fitted hq)
    fun s₄ cleared => ?_
  have trail₄ : s₄.net.trail = s₂.net.trail :=
    (clearMarks_ticks cleared).kin.net.trail.trans k₃.net.trail
  have falsified : ∀ q ∈ -l :: final, s₄.net.trail.litValue q = .ok .fails := by
    intro q hq
    rw [trail₄]
    refine p₂.wf.fails_iff.mpr ?_
    rcases List.mem_cons.mp hq with rfl | hq
    · rw [Lit.neg_neg, k₂.net.trail]
      exact ends.mem
    · exact replacing₂.false_ on q (sub.mem (perm.mem_iff.mp hq))
  refine .bind_ok (allHave_of falsified) ?_
  exact .bind (.ensure rfl) fun _ _ => .ok _

/-- The analysis of a clause that is false.  It is not the last test that fails. -/
theorem failsOnly_analyze {id : ClauseId} (nan : e .incomparableActivities) (on : g.sound)
    (p : Poised g s) (rejects : Rejects g s id) (clear : Flags.isClear s.seen = true) :
    FailsOnly e (s.analyze id) := by
  refine .bind (.bind (failsOnly_gather nan p rejects clear) fun ⟨s₁, gathered⟩ gathering => ?_)
    fun ⟨s₂, result⟩ derived => ?_
  · cases gathered with
    | none => exact .ok _
    | some answer =>
        obtain ⟨p₁, ends⟩ := p.gather rejects gathering
        exact failsOnly_compose nan on p₁ ends
  · cases result with
    | none => exact .ok _
    | some lesson =>
        obtain ⟨k, fine⟩ := derive_admissible derived
        have tested : s₂.allAdmissible lesson.others = .ok true :=
          allAdmissible_of fun l hl => k.admissible (fine l (List.mem_cons_of_mem _ hl))
        exact .bind_ok tested (.bind (.ensure rfl) fun _ _ => .ok _)

/-- A lesson of one literal is for the root level. -/
theorem analyze_unit {id : ClauseId} {l : Lesson} (h : s.analyze id = .ok (s', some l))
    (single : l.others = []) : l.level = 0 := by
  cases analyzed_of_ok h with
  | lesson _ _ _ _ _ _ arranged => exact (latestFirst_spec arranged).2.2.2 single

end Cdcl.Solver
