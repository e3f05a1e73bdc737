import Cdcl.Proofs.Success.Shortening

/-!
# Levels without a fault

Besides its invariant, the operations of a solver count on its being `Sane`.  Each operation
is shown to fail with excused faults only and to leave the solver sane.

* `Fault.Excused` — the faults that come from the outside;
* `cancelUntil_sane`, `propagateAll_sane`, `decide_sane` — the operations on levels.
-/

namespace Cdcl

/-- Faults that no client can rule out: an activity that is not a number, a random place
that is outside of the heap, a size, an offset, a counter or the index of a variable that
needs more bits than are kept for it, and an arena that is too large to be reported. -/
def Fault.Excused : Fault → Prop
  | .incomparableActivities => True
  | .randomOutOfRange => True
  | .widthExceeded => True
  | .reportTooLarge => True
  | .variableTooLarge => True
  | _ => False

namespace Solver

open Network (Regime)

variable {g : Regime} {e : Fault → Prop} {s s' : Solver} {k : Nat}
  {conflict : Option ClauseId} {missing : Option Var}

theorem Sane.congr (x : s.Sane) (net : s'.net = s.net) (order : s'.order = s.order)
    (info : s'.info = s.info) (seen : s'.seen = s.seen) (counted : s.Counted → s'.Counted) :
    s'.Sane where
  sturdy := net ▸ x.sturdy
  fitted := by
    have vars : s'.numVars = s.numVars := congrArg (·.trail.numVars) net
    obtain ⟨observed', info', seen', order'⟩ := x.fitted
    rw [← vars] at observed' info' seen' order'
    exact ⟨net ▸ observed', info ▸ info', seen ▸ seen', order ▸ order'⟩
  counted := counted x.counted
  clear := seen ▸ x.clear

theorem Sane.sized (x : s.Sane) (w : s.net.WF s.net.Lists) : s.net.Sized where
  watches := w.watched.size
  observed := x.fitted.observed

/-! ## Going back -/

/-- By induction over their number, literals can be taken off as long as there are any. -/
theorem failsOnly_undo {mode : PhaseSaving} {last n j : Nat} {t₀ t : Trail} {o : Order}
    (nan : e .incomparableActivities) (w : t₀.WF) (u : t₀.Undone j t)
    (spans : o.Spans t₀.numVars) (enough : n ≤ t.lits.size) :
    FailsOnly e (undo mode last n t o) := by
  induction n generalizing t o j with
  | zero => exact .ok _
  | succ n ih =>
      obtain ⟨p, back⟩ : ∃ p, t.lits.back? = some p := by
        have inside : t.lits.size - 1 < t.lits.size := by omega
        exact ⟨_, (Array.back?_eq_getElem?).trans (Array.getElem?_eq_getElem inside)⟩
      have low : p.var.index < t₀.numVars := by
        have inside : p ∈ t.lits.toList := Array.mem_toList_iff.mpr (Array.mem_of_back? back)
        rw [u.lits] at inside
        exact w.index_lt (Array.mem_toList_iff.mp (List.mem_of_mem_take inside))
      have pops : FailsOnly e t.pop := by
        unfold Trail.pop
        rw [back]
        exact .bind (DenseMap.failsOnly_set (Nat.lt_of_lt_of_eq low u.sizes.symm)) fun _ _ => .ok _
      refine .bind pops fun ⟨t₁, q⟩ popped => ?_
      obtain ⟨back', values, -, rfl⟩ := Trail.pop_eq_ok.mp popped
      cases back.symm.trans back'
      refine .bind (Order.failsOnly_release nan spans low) fun o₁ released => ?_
      refine ih (u.pop w popped) (Order.spans_release spans released) ?_
      rw [Array.size_pop]
      omega

/-- Going back to a level below the current one finds its end. -/
theorem failsOnly_backtrack (nan : e .incomparableActivities) (w : s.net.trail.WF)
    (spans : s.order.Spans s.numVars) (below : k < s.level) : FailsOnly e (s.backtrack k) := by
  have ends : ∀ j, j < s.level → FailsOnly e (s.net.trail.levelEnd j) := fun j low =>
    .of_eq (Trail.levelEnd_eq_ok.mpr ⟨low, rfl⟩)
  refine .bind (ends k below) fun cut here => ?_
  obtain ⟨-, rfl⟩ := Trail.levelEnd_eq_ok.mp here
  refine .bind (ends _ (Nat.sub_lt (Nat.zero_lt_of_lt below) Nat.one_pos)) fun last _ => ?_
  refine .bind (.checkedSub w.cut_le) fun count counted => ?_
  have sum : s.net.trail.lits.size = s.net.trail.cut k + count := checkedSub_eq_ok.mp counted
  exact .bind (failsOnly_undo nan w (.refl w) spans (by omega)) fun _ _ => .ok _

/-- Going back fails only if activities cannot be compared. -/
theorem cancelUntil_sane (nan : e .incomparableActivities) (i : s.Inv g conflict none)
    (x : s.Sane) : Gives e Sane (s.cancelUntil k) where
  failsOnly := by
    refine .ite (fun below => ?_) fun _ => .ok _
    exact .bind (failsOnly_backtrack nan i.core.trail x.fitted.order below) fun _ _ => .ok _
  holds _ h := x.moves i.core (cancelUntil_moves i.core.trail i.covers h)

/-! ## Propagating -/

theorem propagateAll_sane (i : s.Inv g none none) (x : s.Sane) :
    Gives e (fun r => r.1.Sane) s.propagateAll where
  failsOnly := .bind (Network.failsOnly_propagate i.core x.sturdy (x.sized i.net.wf)) fun _ _ => .ok _
  holds _ h := x.moves i.core (propagateAll_moves i.core h)

theorem propagate_sane (i : s.Inv g s.pending none) (x : s.Sane) :
    Gives e (fun r => r.1.Sane) s.propagate := by
  refine .ite (fun _ => .ok x) fun calm => ?_
  have idle : s.pending = none := by
    simp at calm
    exact calm.2
  rw [idle] at i
  refine .step (propagateAll_sane i x) fun ⟨s₁, conflict⟩ _ x₁ => ?_
  cases conflict with
  | none => exact .ok x₁
  | some id =>
      refine .ite (fun _ => .ok ?_) fun _ => .ok ?_
      · exact x₁.congr rfl rfl rfl rfl fun c => c
      · exact x₁.congr rfl rfl rfl rfl fun c => c

/-! ## Beginning a level -/

theorem pushLevel_sane (i : s.Inv g conflict none) (x : s.Sane) : s.pushLevel.Sane :=
  x.moves i.core (pushLevel_moves s)

/-- Only a literal without a value can be decided. -/
theorem decide_sane {p : Lit} (i : s.Inv g conflict missing) (x : s.Sane)
    (free : s.litValue p = .ok .unknown) : Gives e Sane (s.decide p) where
  failsOnly := by
    refine .bind_ok free ?_
    refine .bind (.ensure rfl) fun _ _ => failsOnly_updateNet ?_
    have z := x.sized i.net.wf
    exact Network.failsOnly_enqueue i.core.trail.openLevel ⟨z.watches, z.observed⟩ free
  holds _ h := x.moves i.core (decide_moves h)

end Solver

end Cdcl
