import Cdcl.Proofs.Moving
import Cdcl.Proofs.Reasons
import Cdcl.Proofs.Success.Order
import Cdcl.Proofs.Success.Upkeep

/-!
# Resolution that succeeds

The walk along the trail never reaches a decision, nor the end of the trail, while a
literal of the conflict level is left to be resolved: such a literal stands further down,
and a decision is the first literal of its level.

`Poised` is what the analysis counts on.  It is kept by everything that the analysis does.

* `failsOnly_absorb`, `failsOnly_settle` — taking a clause in, and going on at another level;
* `ne_decision` — above a literal that is left of its level, a literal is implied;
* `failsOnly_walk`, `failsOnly_resolve` — the walk ends without a fault.
-/

namespace Cdcl.Solver

open Network (Regime)

variable {g : Regime} {e : Fault → Prop} {s s' : Solver} {r r' : Resolvent} {v : Var}
  {here : List Lit} {n : Nat}

/-- An operation on the network fails only as it would by itself. -/
theorem failsOnly_updateNet {f : Network → Except Fault Network} (h : FailsOnly e (f s.net)) :
    FailsOnly e (s.updateNet f) := by
  intro fault failed
  unfold updateNet at failed
  simp only at failed
  split at failed
  · cases failed
  next broken =>
    cases failed
    exact h _ broken

theorem failsOnly_updateOrder {f : Order → Except Fault Order} (h : FailsOnly e (f s.order)) :
    FailsOnly e (s.updateOrder f) := by
  intro fault failed
  unfold updateOrder at failed
  simp only at failed
  split at failed
  · cases failed
  next broken =>
    cases failed
    exact h _ broken

/-- What the analysis counts on. -/
structure Poised (g : Regime) (s : Solver) : Prop where
  footing : Footing g s
  core : s.net.Core
  sturdy : s.net.view.Sturdy
  fitted : s.Fitted

namespace Poised

theorem after (p : Poised g s) (k : s.Kin s') (m : s.Shifts s') : Poised g s' where
  footing := k.footing p.footing
  core := View.Chain.core m.chain p.core
  sturdy := m.chain.sturdy p.core p.sturdy
  fitted := m.fitted p.fitted

theorem ticks (p : Poised g s) (t : s.Ticks s') : Poised g s' := p.after t.kin t.touches.toShifts

theorem wf (p : Poised g s) : s.net.trail.WF := p.footing.trail

end Poised

/-! ## Marks -/

theorem failsOnly_seen (f : s.Fitted) (low : v.index < s.numVars) :
    FailsOnly e (s.seen.get v) :=
  DenseMap.failsOnly_get (Nat.lt_of_lt_of_eq low f.seen.symm)

theorem failsOnly_mark (f : s.Fitted) (low : v.index < s.numVars) : FailsOnly e (s.mark v) :=
  .bind (DenseMap.failsOnly_set (Nat.lt_of_lt_of_eq low f.seen.symm)) fun _ _ => .ok _

theorem failsOnly_unmark (f : s.Fitted) (low : v.index < s.numVars) :
    FailsOnly e (s.unmark v) :=
  .bind (DenseMap.failsOnly_set (Nat.lt_of_lt_of_eq low f.seen.symm)) fun _ _ => .ok _

/-- A variable becomes more active, unless the activities in the heap cannot be compared. -/
theorem failsOnly_bumpVar (nan : e .incomparableActivities) (f : s.Fitted)
    (low : v.index < s.numVars) : FailsOnly e (s.updateOrder (·.bump v)) :=
  failsOnly_updateOrder (Order.failsOnly_bump nan f.order low)

theorem failsOnly_isReliable (f : s.Fitted) (low : v.index < s.numVars) :
    FailsOnly e (s.isReliable v) :=
  .bind (DenseMap.failsOnly_get (Nat.lt_of_lt_of_eq low f.info.symm)) fun _ _ => .ok _

theorem index_lt_of_levelOf {t : Trail} {j : Nat} (w : t.WF) (h : t.levelOf v = .ok j) :
    v.index < t.numVars := by
  obtain ⟨o, read, -⟩ := Trail.levelOf_eq_ok.mp h
  have inside := DenseMap.toIndex_lt read
  rw [w.sizes] at inside
  exact inside

/-- No literal of a clause that is taken in is of a later level. -/
theorem failsOnly_absorb {qs : List Lit} (nan : e .incomparableActivities) (p : Poised g s)
    (level : ∀ q ∈ qs, ∃ j, s.net.trail.levelOf q.var = .ok j ∧ j ≤ r.level) :
    FailsOnly e (s.absorb r qs) := by
  induction qs generalizing s r with
  | nil => exact .ok _
  | cons q qs ih =>
      obtain ⟨j, levelOf, le⟩ := level q List.mem_cons_self
      have later : ∀ q' ∈ qs, ∃ j, s.net.trail.levelOf q'.var = .ok j ∧ j ≤ r.level :=
        fun q' hq => level q' (List.mem_cons_of_mem q hq)
      have low : q.var.index < s.numVars := index_lt_of_levelOf p.wf levelOf
      refine .bind_ok levelOf ?_
      refine .bind (.ensure (decide_eq_true le)) fun _ _ => ?_
      refine .bind (failsOnly_seen p.fitted low) fun seen _ => .ite (fun _ => ?_) fun _ => ih p later
      refine .bind (failsOnly_bumpVar nan p.fitted low) fun s₁ bumped => ?_
      have ticks₁ : s.Ticks s₁ := .single (.bump bumped)
      have low₁ : q.var.index < s₁.numVars := ticks₁.touches.vars ▸ low
      refine .bind (failsOnly_mark (p.ticks ticks₁).fitted low₁) fun s₂ marked => ?_
      have ticks₂ : s.Ticks s₂ := ticks₁.tail (.mark marked)
      have p₂ := p.ticks ticks₂
      rw [← ticks₂.kin.net.trail] at later
      exact .ite (fun _ => ih p₂ later) fun _ => ih p₂ later

/-! ## Going on at another level -/

theorem failsOnly_greatestLevel {t : Trail} {ls : List Lit}
    (level : ∀ l ∈ ls, ∃ j, t.levelOf l.var = .ok j) : FailsOnly e (greatestLevel t ls) := by
  induction ls with
  | nil => exact .ok _
  | cons l ls ih =>
      obtain ⟨j, levelOf⟩ := level l List.mem_cons_self
      refine .bind_ok levelOf (.bind (ih fun l' later => ?_) fun _ _ => .ok _)
      exact level l' (List.mem_cons_of_mem l later)

/-- The greatest level is that of some literal, unless it is the root level. -/
theorem greatestLevel_attained {t : Trail} {ls : List Lit} {k : Nat}
    (h : greatestLevel t ls = .ok k) (positive : k ≠ 0) : ∃ l ∈ ls, t.levelOf l.var = .ok k := by
  induction ls generalizing k with
  | nil =>
      cases h
      exact absurd rfl positive
  | cons l ls ih =>
      obtain ⟨j, levelOf, h⟩ := bind_eq_ok.mp h
      obtain ⟨m, rest, h⟩ := bind_eq_ok.mp h
      cases h
      rcases Nat.le_total m j with le | le
      · rw [Nat.max_eq_left le]
        exact ⟨l, List.mem_cons_self, levelOf⟩
      · rw [Nat.max_eq_right le] at positive ⊢
        obtain ⟨l', inside, levelOf'⟩ := ih rest positive
        exact ⟨l', List.mem_cons_of_mem l inside, levelOf'⟩

theorem failsOnly_splitLevel {t : Trail} {k : Nat} {ls : List Lit}
    (level : ∀ l ∈ ls, ∃ j, t.levelOf l.var = .ok j) : FailsOnly e (splitLevel t k ls) := by
  induction ls with
  | nil => exact .ok _
  | cons l ls ih =>
      obtain ⟨j, levelOf⟩ := level l List.mem_cons_self
      refine .bind (ih fun l' later => level l' (List.mem_cons_of_mem l later)) fun _ _ => ?_
      exact .bind_ok levelOf (.ite (fun _ => .ok _) fun _ => .ok _)

/-- If nothing is left to resolve, no literal of the conflict level has been met. -/
theorem Gathered.nothing_here (h : Gathered s r here n) (done : ¬r.pending ≠ 0) : here = [] := by
  apply List.eq_nil_of_length_eq_zero
  rw [h.count]
  simpa using done

/-- If no literal of a level above the root is left, then none is left at all. -/
theorem failsOnly_settle (h : Gathered s r here n) : FailsOnly e (s.settle r) := by
  refine .ite (fun _ => .ok _) fun done => ?_
  have level : ∀ l ∈ r.others.toList, ∃ j, s.net.trail.levelOf l.var = .ok j := fun l hl =>
    (h.lower l hl).imp fun _ known => known.1
  refine .bind (failsOnly_greatestLevel level) fun k greatest => .ite (fun zero => ?_) fun _ => ?_
  · refine .bind (.ensure (isClear_of_unmarked fun v marked => ?_)) fun _ _ => .ok _
    obtain ⟨l, hl, -⟩ := (h.marked v).mp marked
    rw [h.nothing_here done, List.nil_append] at hl
    obtain ⟨j, levelOf, positive, -⟩ := h.lower l hl
    obtain ⟨j', levelOf', le⟩ := greatestLevel_spec greatest l hl
    cases levelOf.symm.trans levelOf'
    omega
  · exact .bind (failsOnly_splitLevel level) fun _ _ => .ok _

/-- When the walk goes on, there is something left for it to resolve. -/
theorem settle_pending (h : s.settle r = .ok (s', some r')) : r'.pending ≠ 0 := by
  unfold settle at h
  split at h
  next some_ =>
    cases h
    exact some_
  next =>
    obtain ⟨k, greatest, h⟩ := bind_eq_ok.mp h
    split at h
    next =>
      obtain ⟨_, -, h⟩ := bind_eq_ok.mp h
      cases h
    next positive =>
      obtain ⟨⟨count, others⟩, divided, h⟩ := bind_eq_ok.mp h
      cases h
      obtain ⟨same, length, perm, -, differ⟩ := splitLevel_spec divided
      obtain ⟨l, inside, levelOf⟩ := greatestLevel_attained greatest positive
      rcases List.mem_append.mp (perm.mem_iff.mpr inside) with hl | hl
      · rw [← length]
        exact Nat.ne_of_gt (List.length_pos_of_mem hl)
      · exact absurd levelOf (differ l hl)

/-! ## The walk -/

theorem failsOnly_countUse {id : ClauseId} {c : Clause} (p : Poised g s)
    (stored : s.net.body? id = some c) : FailsOnly e (s.countUse id) := by
  refine .bind (Network.failsOnly_clause stored) fun d read => .ite (fun kind => ?_) fun _ => .ok _
  cases stored.symm.trans (Arena.body?_of_get read)
  exact failsOnly_updateNet (Network.failsOnly_bumpClause p.sturdy.indexed stored kind)

/-- A reason with premises can be read, and its clause implies the literal. -/
theorem failsOnly_explain {l : Lit} {pending : Nat} {ps : List Lit} {why : Reason}
    (p : Poised g s) (behind : s.net.Behind l ps why) :
    FailsOnly e (s.explain l pending why) := by
  cases why with
  | decision => exact behind.elim
  | binary a => exact .ok _
  | ternary a b => exact .ok _
  | clause id =>
      obtain ⟨c, stored, first, -⟩ := behind
      refine .bind (failsOnly_countUse p stored) fun s₁ counted => ?_
      have stored₁ : s₁.net.body? id = some c := by
        rw [(countUse_eq_ok counted).1.net.body, stored]
      refine .bind (Network.failsOnly_clause stored₁) fun d read => ?_
      cases stored₁.symm.trans (Arena.body?_of_get read)
      exact .bind (.ensure (decide_eq_true first)) fun _ _ => .ok _

/-- A literal is not the first one of its level if another one of that level stands before
it. -/
theorem ne_decision {i m j : Nat} {l x : Lit} {why : Reason} (p : Poised g s)
    (there : s.net.trail.lits[i]? = some l) (level : s.net.trail.levelOf l.var = .ok j)
    (positive : 0 < j) (reasonOf : s.net.trail.reasonOf l.var = .ok why)
    (before : m < i) (other : s.net.trail.lits[m]? = some x)
    (same : s.net.trail.levelOf x.var = .ok j) : why ≠ .decision := by
  intro decision
  subst decision
  have root := p.wf.lt_cut_iff (k := 0) there level
  have above : s.net.trail.cut 0 ≤ i := by omega
  obtain ⟨k, mark⟩ := p.sturdy.grounded.led ⟨there, above, reasonOf⟩
  obtain ⟨k, rfl, mark⟩ := p.wf.mark_of_level there mark level
  have cut : s.net.trail.cut k = i := by
    unfold Trail.cut
    rw [mark, Option.getD_some]
  have below := (p.wf.lt_cut_iff (k := k) other same).mp (cut.symm ▸ before)
  omega

/-- While something is left to resolve, the literal that is met is not the decision of its level. -/
theorem Exposed.ne_decision {l : Lit} {why : Reason} (o : Exposed g s l n r here)
    (p : Poised g s) (reasonOf : s.net.trail.reasonOf l.var = .ok why)
    (some_ : r.pending ≠ 0) : why ≠ .decision := by
  obtain ⟨x, hx⟩ : ∃ x, x ∈ here :=
    List.exists_mem_of_length_pos (Nat.pos_of_ne_zero (o.gathered.count ▸ some_))
  obtain ⟨level, -⟩ := o.gathered.level x hx
  obtain ⟨i, m, before, there, var⟩ := o.gathered.placed x (List.mem_append_left _ hx)
  exact Solver.ne_decision p o.last o.level o.positive reasonOf before there (var ▸ level)

/-- A literal that is implied has a reason that can be taken in. -/
theorem Exposed.failsOnly_explain {l : Lit} {pending : Nat} {why : Reason}
    (o : Exposed g s l n r here) (p : Poised g s)
    (reasonOf : s.net.trail.reasonOf l.var = .ok why) (implied : why ≠ .decision) :
    FailsOnly e (s.explain l pending why) := by
  obtain ⟨ps, -, behind, -⟩ := p.footing.reason o.last o.level o.positive reasonOf implied
  exact Solver.failsOnly_explain p behind

/-- The premises of a literal are of no later level. -/
theorem Exposed.premises {l : Lit} {pending : Nat} {why : Reason} {lits : List Lit}
    (o : Exposed g s l n r here) (p : Poised g s)
    (reasonOf : s.net.trail.reasonOf l.var = .ok why)
    (explained : s.explain l pending why = .ok (s', lits)) : Poised g s' ∧
      ∀ q ∈ lits, ∃ j, s'.net.trail.levelOf q.var = .ok j ∧ j ≤ r.level := by
  have implied : why ≠ .decision := by
    intro same
    subst same
    cases explained
  obtain ⟨ps, -, behind, placed, -⟩ :=
    p.footing.reason o.last o.level o.positive reasonOf implied
  obtain ⟨rfl, k, -⟩ := explain_eq_ok explained behind
  refine ⟨p.ticks (explain_ticks explained), fun q hq => ?_⟩
  obtain ⟨i, m, before, there, var⟩ := placed q hq
  obtain ⟨j, levelOf⟩ := p.wf.exists_level (Array.mem_of_getElem? there)
  rw [k.net.trail, ← var]
  exact ⟨j, levelOf, level_le_of_lt p.wf o.last there before o.level levelOf⟩

/-- The walk ends before the trail does, because something is left to resolve. -/
theorem failsOnly_walk (nan : e .incomparableActivities) (p : Poised g s)
    (bound : n ≤ s.net.trail.lits.size) (gathered : Gathered s r here n)
    (derives : Derives g s.net.trail (here ++ r.others.toList)) (some_ : r.pending ≠ 0) :
    FailsOnly e (s.walk r (s.net.trail.lits.toList.take n).reverse) := by
  induction n generalizing s r here with
  | zero =>
      obtain ⟨x, hx⟩ : ∃ x, x ∈ here :=
        List.exists_mem_of_length_pos (Nat.pos_of_ne_zero (gathered.count ▸ some_))
      obtain ⟨i, -, before, -⟩ := gathered.placed x (List.mem_append_left _ hx)
      exact absurd before (Nat.not_lt_zero i)
  | succ n ih =>
      have inside : n < s.net.trail.lits.size := bound
      obtain ⟨l, last⟩ : ∃ l, s.net.trail.lits[n]? = some l :=
        ⟨_, Array.getElem?_eq_getElem inside⟩
      have low : l.var.index < s.numVars := p.wf.index_lt (Array.mem_of_getElem? last)
      rw [reverse_take_succ last]
      refine .bind (failsOnly_seen p.fitted low) fun seen read => ?_
      cases seen with
      | false =>
          exact ih p (Nat.le_of_lt inside) (gathered.pass last (not_marked read)) derives some_
      | true =>
          refine .bind (Trail.failsOnly_reasonOf p.wf low) fun why reasonOf => ?_
          refine .bind (failsOnly_unmark p.fitted low) fun s₁ unmarked => ?_
          refine .bind (.checkedSub (Nat.pos_of_ne_zero some_)) fun pending counted => ?_
          obtain ⟨k₁, rest, exposed⟩ := gathered.expose p.footing derives last read unmarked counted
          have p₁ := p.ticks (.single (.unmark unmarked))
          have low₁ : l.var.index < s₁.numVars := p₁.wf.index_lt (Array.mem_of_getElem? exposed.last)
          refine .bind (failsOnly_isReliable p₁.fitted low₁) fun reliable _ => ?_
          refine .ite (fun _ => .ok _) fun more => ?_
          generalize e₂ : (if pending = 0 then s₁.log (.skipUnreliable l) else s₁) = s₂
          have skipped : s₁.Kin s₂ ∧ s₁.Moves s₂ ∧ ∀ v, s₂.Marked v ↔ s₁.Marked v := by
            subst e₂
            split
            · exact ⟨kin_log rfl _, log_moves _ _, fun _ => .rfl⟩
            · exact ⟨.refl _, .refl _, fun _ => .rfl⟩
          obtain ⟨k₂, m₂, marks₂⟩ := skipped
          have p₂ := p₁.after k₂ m₂.toShifts
          have exposed₂ := exposed.kin k₂ marks₂
          have trail₂ : s₂.net.trail = s.net.trail := (k₁.trans k₂).net.trail
          have reason₂ : s₂.net.trail.reasonOf l.var = .ok why := trail₂ ▸ reasonOf
          have implied : why ≠ .decision := by
            by_cases done : pending = 0
            · simp [done] at more
              exact more.2
            · exact exposed₂.ne_decision p₂ reason₂ done
          refine .bind (exposed₂.failsOnly_explain p₂ reason₂ implied) fun ⟨s₃, lits⟩ explained => ?_
          obtain ⟨p₃, levels⟩ := exposed₂.premises p₂ reason₂ explained
          refine .bind (failsOnly_absorb nan p₃ levels) fun ⟨s₄, r₄⟩ absorbed => ?_
          obtain ⟨k₄, here₄, gathered₄, -⟩ :=
            exposed₂.absorb p₂.footing reason₂ explained absorbed
          refine .bind (failsOnly_settle gathered₄) fun ⟨s₅, next_⟩ settled => ?_
          cases next_ with
          | none => exact .ok _
          | some r₅ =>
              obtain ⟨k₅, here₅, gathered₅, derives₅⟩ :=
                exposed₂.resolve p₂.footing reason₂ explained absorbed settled
              have p₅ := p₂.ticks (((explain_ticks explained).trans (absorb_ticks absorbed)).trans
                (settle_ticks settled))
              have trail₅ : s₅.net.trail = s.net.trail := k₅.net.trail.trans trail₂
              have rest₅ := ih p₅ (trail₅ ▸ Nat.le_of_lt inside) gathered₅ derives₅
                (settle_pending settled)
              rw [trail₅] at rest₅
              exact rest₅

/-! ## From the false clause on -/

/-- From a clause that is false the walk comes to its end, unless activities cannot be compared. -/
theorem failsOnly_resolve {id : ClauseId} (nan : e .incomparableActivities) (p : Poised g s)
    (rejects : Rejects g s id) (clear : Flags.isClear s.seen = true) :
    FailsOnly e (s.resolve id) := by
  obtain ⟨c, stored, false_, entailed⟩ := rejects
  refine .bind (failsOnly_countUse p stored) fun s₁ counted => ?_
  obtain ⟨k₁, marks⟩ := countUse_eq_ok counted
  have p₁ := p.ticks (.single (.use counted))
  have stored₁ : s₁.net.body? id = some c := by rw [k₁.net.body, stored]
  rw [← k₁.net.trail] at false_
  refine .bind (Network.failsOnly_clause stored₁) fun d read => ?_
  cases stored₁.symm.trans (Arena.body?_of_get read)
  obtain ⟨none, placed, derives⟩ := gathered_start false_ entailed fun v => by
    rw [marks]
    exact not_marked_of_isClear clear v
  have levels : ∀ q ∈ d.lits, ∃ j, s₁.net.trail.levelOf q.var = .ok j ∧ j ≤ s₁.level := by
    intro q hq
    obtain ⟨j, levelOf⟩ := p₁.wf.exists_level (false_ q hq)
    exact ⟨j, levelOf, p₁.wf.levelOf_le (false_ q hq) levelOf⟩
  refine .bind (failsOnly_absorb nan p₁ levels) fun ⟨s₂, r₂⟩ absorbed => ?_
  obtain ⟨here₂, k₂, gathered₂, derives₂⟩ := absorb_gathered p₁.footing absorbed none placed derives
  refine .bind (failsOnly_settle gathered₂) fun ⟨s₃, next_⟩ settled => ?_
  cases next_ with
  | none => exact .ok _
  | some r₃ =>
      obtain ⟨k₃, here₃, gathered₃, derives₃⟩ := settle_gathered settled gathered₂ derives₂
      have p₃ := p₁.ticks ((absorb_ticks absorbed).trans (settle_ticks settled))
      have size : s₃.net.trail.lits.size = s₁.net.trail.lits.size := by
        rw [(k₂.trans k₃).net.trail]
      rw [← size] at gathered₃
      have walks := failsOnly_walk nan p₃ (Nat.le_refl _) gathered₃ derives₃ (settle_pending settled)
      rw [take_size] at walks
      exact walks

end Cdcl.Solver
