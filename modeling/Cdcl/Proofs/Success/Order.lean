import Cdcl.Proofs.Fitting
import Cdcl.Proofs.Success.Heap

/-!
# Operations of the decision order that succeed

Where the maps of the order cover the variables, its operations fail only if an activity
is not a number, or if a variable drawn at random is outside of the heap.

* `failsOnly_offer`, `failsOnly_setEligible`, `failsOnly_addVar`, `failsOnly_bump`,
  `failsOnly_release`, `failsOnly_rebuild`, `failsOnly_pickBy` — the operations.
-/

namespace Cdcl

/-- The whole numbers of a generator are below their bounds. -/
def Generator.Inside (r : Generator) : Prop :=
  ∀ seed n, 0 < n → 0 ≤ (r.below seed n).1 ∧ (r.below seed n).1.toNat < n

namespace Order

variable {o o' : Order} {n : Nat} {v : Var} {t : Trail} {e : Fault → Prop}

/-- Comparing two variables fails only if an activity is not a number. -/
theorem comparable_before {activity : DenseMap Var Float} {m : Var → Prop}
    (excused : e .incomparableActivities) (low : ∀ v, m v → v.index < activity.size) :
    Heap.Comparable e (before activity) m := by
  intro a b ha hb
  refine .bind (DenseMap.failsOnly_get (low b hb)) fun y _ => ?_
  refine .bind (DenseMap.failsOnly_get (low a ha)) fun x _ => ?_
  exact .ite (fun _ => .throw excused) fun _ => .ok _

theorem failsOnly_updateHeap {f : Heap.Less Var → Heap Var → Except Fault (Heap Var)}
    (h : FailsOnly e (f (before o.activity) o.heap)) : FailsOnly e (o.updateHeap f) := by
  unfold updateHeap
  simp only
  split
  next => exact .ok _
  next fault failed => exact .throw (h fault failed)

theorem failsOnly_offer (excused : e .incomparableActivities) (s : o.Spans n)
    (low : v.index < n) : FailsOnly e (o.offer v) := by
  obtain ⟨m, holds, below⟩ := s.heap
  refine .bind (DenseMap.failsOnly_get (s.eligible.symm ▸ low)) fun may _ => ?_
  refine .ite (fun new => failsOnly_updateHeap ?_) fun _ => .ok _
  have away : ¬m v := by
    rw [← holds.contains_iff]
    simp only [Bool.and_eq_true, Bool.not_eq_true'] at new
    simp [new.1]
  refine Heap.failsOnly_insert holds away (comparable_before excused ?_)
  rw [s.activity]
  rintro u (rfl | old)
  · exact low
  · exact below u old

/-- The number of variables that may be decided is counted rightly, so it does not fall below
zero. -/
theorem failsOnly_recount {flags : Flags Var} {was b : Bool} {count : Nat}
    (read : flags.get v = .ok was) (counted : count = flags.cells.toList.count true) :
    FailsOnly e (recount count was b) := by
  cases was with
  | false => cases b <;> exact .ok _
  | true =>
      cases b with
      | true => exact .ok _
      | false =>
          refine .checkedSub ?_
          rw [counted]
          refine List.count_pos_iff.mpr (List.mem_of_getElem? (i := v.index) ?_)
          rw [Array.getElem?_toList]
          exact DenseMap.get_eq_ok.mp read

theorem failsOnly_setEligible {b : Bool} (excused : e .incomparableActivities) (s : o.Spans n)
    (low : v.index < n) : FailsOnly e (o.setEligible v b) := by
  have covered : v.index < o.eligible.size := s.eligible.symm ▸ low
  refine .bind (DenseMap.failsOnly_get covered) fun was read => ?_
  refine .bind (failsOnly_recount read s.count) fun count recounted => ?_
  refine .bind (DenseMap.failsOnly_set covered) fun eligible written => ?_
  exact failsOnly_offer excused (s.mayDecide read recounted written) low

theorem failsOnly_addVar {random eligible : Bool} {preferred : Truth}
    (excused : e .incomparableActivities) (s : o.Spans n) (fresh : v.index = n) :
    FailsOnly e (o.addVar v random preferred eligible) := by
  unfold addVar
  split
  exact failsOnly_setEligible excused (s.extend fresh) (fresh ▸ Nat.lt_succ_self v.index)

/-- A variable can be made more active, after which it may rise in the heap. -/
theorem failsOnly_bump (excused : e .incomparableActivities) (s : o.Spans n)
    (low : v.index < n) : FailsOnly e (o.bump v) := by
  have covered : v.index < o.activity.size := s.activity.symm ▸ low
  have risen : ∀ {o₁ : Order}, o₁.Spans n → FailsOnly e
      (if o₁.heap.contains v then o₁.updateHeap fun less heap => heap.rise less v
        else pure o₁) := by
    intro o₁ s₁
    obtain ⟨m, holds, below⟩ := s₁.heap
    refine .ite (fun inside => failsOnly_updateHeap ?_) fun _ => .ok _
    refine Heap.failsOnly_rise holds (comparable_before excused ?_) (holds.contains_iff.mp inside)
    exact fun u mem => s₁.activity.symm ▸ below u mem
  refine .bind (DenseMap.failsOnly_get covered) fun x _ => ?_
  refine .bind (DenseMap.failsOnly_set covered) fun activity written => ?_
  have size : activity.size = n := (DenseMap.size_set written).trans s.activity
  dsimp only
  split
  · exact risen (s.weigh ((DenseMap.size_mapWithKey ..).trans size))
  · exact risen (s.weigh size)

theorem failsOnly_release {save : Bool} {p : Lit} (excused : e .incomparableActivities)
    (s : o.Spans n) (low : p.var.index < n) : FailsOnly e (o.release save p) := by
  refine .ite (fun _ => ?_) fun _ => failsOnly_offer excused s low
  refine .bind (.bind (DenseMap.failsOnly_set (s.phase.symm ▸ low)) fun _ _ => .ok _) ?_
  exact fun o₁ saved => failsOnly_offer excused (spans_savePhase s saved) low

theorem failsOnly_rebuild (excused : e .incomparableActivities) (s : o.Spans n)
    (vars : t.numVars = n) : FailsOnly e (o.rebuild t) := by
  obtain ⟨m, holds, -⟩ := s.heap
  refine .bind (.filterM fun v inside => ?_) fun free listed => failsOnly_updateHeap ?_
  · obtain ⟨i, low, rfl⟩ := List.mem_map.mp inside
    have low : i < n := vars ▸ List.mem_range.mp low
    refine .bind (DenseMap.failsOnly_get (s.eligible.symm ▸ low)) fun may _ => ?_
    refine .ite (fun _ => ?_) fun _ => .ok _
    exact .bind (DenseMap.failsOnly_get (Nat.lt_of_lt_of_eq low vars.symm)) fun _ _ => .ok _
  · obtain ⟨once, below⟩ := chosen_below listed
    refine Heap.failsOnly_build holds once (comparable_before excused fun v inside => ?_)
    rw [s.activity, ← vars]
    exact below v inside

/-! ## Picking a variable -/

theorem failsOnly_isFree (s : o.Spans n) (vars : t.numVars = n) (low : v.index < n) :
    FailsOnly e (o.isFree t v) := by
  refine .bind (DenseMap.failsOnly_get (Nat.lt_of_lt_of_eq low vars.symm)) fun x _ => ?_
  exact .ite (fun _ => DenseMap.failsOnly_get (s.eligible.symm ▸ low)) fun _ => .ok _

theorem failsOnly_pop (excused : e .incomparableActivities) (s : o.Spans n) :
    FailsOnly e o.pop := by
  obtain ⟨m, holds, below⟩ := s.heap
  unfold pop
  simp only
  split
  next => exact .ok _
  next fault failed =>
    refine .throw (Heap.failsOnly_pop holds (comparable_before excused ?_) fault failed)
    exact fun v mem => s.activity.symm ▸ below v mem

/-- By induction over the number of keys, the top can be taken off until it is free. -/
theorem failsOnly_popFree {k : Nat} (excused : e .incomparableActivities) (s : o.Spans n)
    (vars : t.numVars = n) : FailsOnly e (popFree t k o) := by
  induction k generalizing o with
  | zero => exact .ok _
  | succ k ih =>
      refine .bind (failsOnly_pop excused s) fun ⟨o₁, top⟩ popped => ?_
      cases top with
      | none => exact .ok _
      | some v =>
          obtain ⟨s₁, low⟩ := spans_pop s popped
          refine .bind (failsOnly_isFree s₁ vars (low v rfl)) fun free _ => ?_
          exact .ite (fun _ => .ok _) fun _ => ih s₁

section Draw

variable {r : Generator} {frequency : Float} {polarity : Bool}

/-- Drawing fails only if a place is outside of the heap. -/
theorem failsOnly_randomVarBy (drawn : r.Inside ∨ e .randomOutOfRange)
    (filled : o.heap.isEmpty = false) : FailsOnly e (o.randomVarBy r) := by
  unfold randomVarBy
  simp only
  refine .ite (fun inside => ?_) fun outside => ?_
  · simp only [Bool.and_eq_true, decide_eq_true_eq] at inside
    exact .bind (Heap.failsOnly_key inside.2) fun _ _ => .ok _
  · refine .throw (drawn.resolve_left fun within => outside ?_)
    have size : 0 < o.heap.size := by
      refine Nat.pos_of_ne_zero fun empty => ?_
      have vacant : o.heap.isEmpty = true := by simpa [Heap.isEmpty, Heap.size] using empty
      rw [filled] at vacant
      cases vacant
    obtain ⟨positive, low⟩ := within o.seed o.heap.size size
    simp [positive, low]

/-- A random pick fails only if a place that is drawn is outside of the heap. -/
theorem failsOnly_pickRandomBy (drawn : r.Inside ∨ e .randomOutOfRange) (s : o.Spans n)
    (vars : t.numVars = n) : FailsOnly e (o.pickRandomBy r t frequency) := by
  unfold pickRandomBy
  simp only
  refine .ite (fun asked => ?_) fun _ => .ok _
  have filled : o.heap.isEmpty = false := by
    simp only [Bool.and_eq_true, Bool.not_eq_true'] at asked
    exact asked.2
  have s₁ := s.reseed (r.next o.seed).2
  refine .bind (failsOnly_randomVarBy drawn filled) fun ⟨o₁, v⟩ chosen => ?_
  obtain ⟨⟨seed, rfl⟩, i, there⟩ := randomVarBy_eq_ok chosen
  refine .bind (failsOnly_isFree (s₁.reseed seed) vars (s.index_lt there)) fun _ _ => ?_
  exact .ite (fun _ => .ok _) fun _ => .ok _

/-- The sign is preferred, drawn or looked up. -/
theorem failsOnly_chooseSignBy (s : o.Spans n) (low : v.index < n) :
    FailsOnly e (o.chooseSignBy r v polarity) := by
  refine .bind (DenseMap.failsOnly_get (s.preferred.symm ▸ low)) fun preferred _ => ?_
  cases preferred with
  | holds => exact .ok _
  | fails => exact .ok _
  | unknown =>
      refine .ite (fun _ => .ok _) fun _ => ?_
      exact .bind (DenseMap.failsOnly_get (s.phase.symm ▸ low)) fun _ _ => .ok _

/-- A pick fails only if two activities cannot be compared, or if a place that is drawn is
outside of the heap. -/
theorem failsOnly_pickBy (nan : e .incomparableActivities)
    (drawn : r.Inside ∨ e .randomOutOfRange) (s : o.Spans n) (vars : t.numVars = n) :
    FailsOnly e (o.pickBy r t frequency polarity) := by
  refine .bind ?_ fun ⟨o₁, picked, random⟩ picking => ?_
  · refine .bind (failsOnly_pickRandomBy drawn s vars) fun ⟨o₁, choice⟩ drawing => ?_
    obtain ⟨⟨seed, rfl⟩, -⟩ := pickRandomBy_eq_ok drawing
    cases choice with
    | some v => exact .ok _
    | none => exact .bind (failsOnly_popFree nan (s.reseed seed) vars) fun _ _ => .ok _
  · cases picked with
    | none => exact .ok _
    | some v =>
        have known : v.index < n := vars ▸ DenseMap.toIndex_lt (free_pickVarBy picking).unknown
        exact .bind (failsOnly_chooseSignBy (spans_pickVarBy s picking) known) fun _ _ => .ok _

end Draw

end Order

end Cdcl
