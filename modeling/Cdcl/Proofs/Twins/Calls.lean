import Cdcl.Proofs.Accounts
import Cdcl.Proofs.Rehearsing
import Cdcl.Proofs.Twins.Search

/-!
# Twin runs

The same calls are made on two solvers whose options differ in the share of dead words at
which the arena is compacted.  The two compact at different moments, and no client can
tell: the replies are the same, and after each call the solvers are twins.

* `Twin.load` — loading a text;
* `Twin.perform` — one call;
* `collection_transparent` — all calls.
-/

namespace Cdcl.Solver

open Network (Regime)
open View (Sturdy)

variable {g : Regime} {s s' : Solver} {v : Var} {x : Bool}

namespace Twin

/-! ## Variables and texts -/

/-- The new variable is the same. -/
theorem newVar {spec : VarSpec} (t : s.Twin s') :
    Jointly (Beside Twin) (s.newVar spec) (s'.newVar spec) := by
  obtain ⟨⟨arena, journal⟩⟩ := t
  exact .same fun _ _ => .same fun order _ => .ok ⟨log (.mk (.mk arena journal)), rfl⟩

theorem newVars {spec : VarSpec} {n : Nat} (t : s.Twin s') :
    Jointly Twin (newVars spec n s) (Solver.newVars spec n s') := by
  induction n generalizing s s' with
  | zero => exact .ok t
  | succ n ih => exact .step t.newVar fun s₁ s₁' v t₁ _ => ih t₁

theorem varOfIndex {i : Nat} (t : s.Twin s') :
    Jointly (Beside Twin) (s.varOfIndex i) (s'.varOfIndex i) := by
  obtain ⟨⟨arena, journal⟩⟩ := t
  refine .bind (newVars (.mk (.mk arena journal))) fun s₁ s₁' t₁ _ => ?_
  exact .same fun v _ => .ok ⟨t₁, rfl⟩

theorem mention {ls : List Lit} (t : s.Twin s') : Jointly Twin (s.mention ls) (s'.mention ls) := by
  induction ls generalizing s s' with
  | nil => exact .ok t
  | cons l ls ih => exact .step t.varOfIndex fun s₁ s₁' v t₁ _ => ih t₁

/-- An item of a text is loaded in both. -/
theorem loadItem {item : Dimacs.Item} (t : s.Twin s') :
    Jointly Twin (s.loadItem item) (s'.loadItem item) := by
  cases item with
  | comment => exact .ok t
  | header vars clauses => exact .ok t.log
  | clause lits =>
      refine .bind t.mention fun s₁ s₁' t₁ _ => ?_
      exact .step t₁.addClause fun s₂ s₂' answer t₂ _ => .ok t₂

theorem loadItems {items : List Dimacs.Item} (t : s.Twin s') :
    Jointly Twin (s.loadItems items) (s'.loadItems items) := by
  induction items generalizing s s' with
  | nil => exact .ok t
  | cons item items ih => exact .bind t.loadItem fun s₁ s₁' t₁ _ => ih t₁

/-- Loading a text ends in the same way, with the same error if there is one. -/
theorem load {strict : Bool} {bs : List UInt8} (t : s.Twin s') :
    Jointly (Beside Twin) (s.load strict bs) (s'.load strict bs) := by
  refine .bind t.loadItems fun s₁ s₁' t₁ _ => ?_
  exact .bind t₁.mention fun s₂ s₂' t₂ _ => .ok ⟨t₂, rfl⟩

/-! ## Settings -/

theorem setReliable (t : s.Twin s') : Jointly Twin (s.setReliable v x) (s'.setReliable v x) := by
  obtain ⟨t⟩ := t
  exact .same fun _ _ => .same fun info _ => .ok (.mk t)

theorem setObserved (t : s.Twin s') : Jointly Twin (s.setObserved v x) (s'.setObserved v x) := by
  obtain ⟨⟨arena, journal⟩⟩ := t
  exact .same fun observed _ => .ok (.mk (.mk arena journal))

/-! ## Calls -/

/-- Every call has the same reply, and leaves twins behind. -/
theorem perform {c : Call} {fuel fuel' : Nat} (t : s.Twin s') (r : Ready g s) (loose : ¬g.paced)
    (d : s.net.view.Sturdy) : Jointly (Beside Twin) (s.perform fuel c) (s'.perform fuel' c) := by
  cases c with
  | newVar spec => exact .step t.newVar fun _ _ _ t₁ _ => .ok ⟨t₁, rfl⟩
  | varOfIndex i => exact .step t.varOfIndex fun _ _ _ t₁ _ => .ok ⟨t₁, rfl⟩
  | addClause lits => exact .step t.addClauseReporting fun _ _ _ t₁ _ => .ok ⟨t₁, rfl⟩
  | load strict bytes => exact .step t.load fun _ _ _ t₁ _ => .ok ⟨t₁, rfl⟩
  | solve => exact .step (t.solve r loose d) fun _ _ _ t₁ _ => .ok ⟨t₁, rfl⟩
  | simplify => exact .step (t.simplify r d) fun _ _ _ t₁ _ => .ok ⟨t₁, rfl⟩
  | propagate => exact .step t.propagate fun _ _ _ t₁ _ => .ok ⟨t₁, rfl⟩
  | resolveConflict => exact .step t.resolveConflict fun _ _ _ t₁ _ => .ok ⟨t₁, rfl⟩
  | decide l => exact .bind t.decide fun _ _ t₁ _ => .ok ⟨t₁, rfl⟩
  | pushLevel => exact .ok ⟨t.pushLevel, rfl⟩
  | cancelUntil level => exact .bind t.cancelUntil fun _ _ t₁ _ => .ok ⟨t₁, rfl⟩
  | setReliable v x => exact .bind t.setReliable fun _ _ t₁ _ => .ok ⟨t₁, rfl⟩
  | setDecision v x => exact .bind t.updateOrder fun _ _ t₁ _ => .ok ⟨t₁, rfl⟩
  | setObserved v x => exact .bind t.setObserved fun _ _ t₁ _ => .ok ⟨t₁, rfl⟩
  | setBudget budget =>
      obtain ⟨t⟩ := t
      exact .ok ⟨.mk t, rfl⟩
  | setInterrupt raised =>
      obtain ⟨t⟩ := t
      exact .ok ⟨.mk t, rfl⟩
  | setStop answer =>
      obtain ⟨t⟩ := t
      exact .ok ⟨.mk t, rfl⟩

end Twin

/-! ## Runs -/

variable {options : Options} {fraction : Float} {listening : Bool} {threshold : Option Severity}
  {outside : Outside} {calls : List Call} {fuel fuel' : Nat} {replies replies' : List Reply}

/-- Two fresh solvers whose options differ in the share of dead words only. -/
theorem twin_create (created : create options listening threshold outside = .ok s)
    (created' : create { options with garbageFraction := fraction } listening threshold outside =
      .ok s') :
    s.Twin s' := by
  unfold create at created created'
  split at created
  · split at created'
    · cases created
      cases created'
      exact .mk (.refl _)
    · cases created'
  · cases created

/-- Calls on the state of a run and on its twin. -/
theorem twin_performAll {before : List Call} (run : Reaches options (fun _ _ => True) before s)
    (t : s.Twin s') :
    Jointly (Beside Twin) (s.performAll fuel calls) (s'.performAll fuel' calls) := by
  induction calls generalizing before s s' with
  | nil => exact .ok ⟨t, rfl⟩
  | cons c cs ih =>
      refine .step (t.perform run.standing (fun on => on) run.sane.sturdy)
        fun s₁ s₁' reply t₁ performed => ?_
      exact .step (ih (run.call trivial performed) t₁) fun _ _ _ t₂ _ => .ok ⟨t₂, rfl⟩

/-- The first of the calls succeed if all do, with the first of the replies. -/
theorem exists_performAll_take (h : s.performAll fuel calls = .ok (s', replies)) (k : Nat) :
    ∃ s₁, s.performAll fuel (calls.take k) = .ok (s₁, replies.take k) := by
  induction calls generalizing s replies k with
  | nil =>
      cases h
      exact ⟨s', by simp [performAll]⟩
  | cons c cs ih =>
      obtain ⟨⟨s₁, reply⟩, performed, h⟩ := bind_eq_ok.mp h
      obtain ⟨⟨s₂, rest⟩, later, h⟩ := bind_eq_ok.mp h
      cases h
      cases k with
      | zero => exact ⟨s, rfl⟩
      | succ k =>
          obtain ⟨s₃, first⟩ := ih later k
          refine ⟨s₃, bind_eq_ok.mpr ⟨_, performed, ?_⟩⟩
          exact bind_eq_ok.mpr ⟨_, first, rfl⟩

/-- The share of dead words at which the arena is compacted makes no difference to a client.
If the same calls succeed on two fresh solvers whose options differ in nothing else, and both
take the same from outside, every reply is the same, and after each call the solvers are
twins. -/
theorem collection_transparent {a₀ b₀ a b : Solver}
    (created : create options listening threshold outside = .ok a₀)
    (created' : create { options with garbageFraction := fraction } listening threshold outside =
      .ok b₀)
    (ran : a₀.performAll fuel calls = .ok (a, replies))
    (ran' : b₀.performAll fuel' calls = .ok (b, replies')) :
    replies' = replies ∧ ∀ k, ∃ a' b' : Solver,
      a₀.performAll fuel (calls.take k) = .ok (a', replies.take k) ∧
        b₀.performAll fuel' (calls.take k) = .ok (b', replies.take k) ∧ a'.Twin b' := by
  have run : Reaches options (fun _ _ => True) [] a₀ := .fresh created
  have start := twin_create created created'
  obtain ⟨-, same⟩ := twin_performAll run start _ _ ran ran'
  have same : replies' = replies := same
  subst same
  refine ⟨rfl, fun k => ?_⟩
  obtain ⟨a', left⟩ := exists_performAll_take ran k
  obtain ⟨b', right⟩ := exists_performAll_take ran' k
  exact ⟨a', b', left, right, (twin_performAll run start _ _ left right).1⟩

/-- With the worn clauses one solver compacts its arena to four words, and the other one leaves it at
eight. -/
theorem worn_clauses_transparent : ∃ (a₀ b₀ a b : Solver) (replies : List Reply),
    create {} true none = .ok a₀ ∧ create { garbageFraction := 0.7 } true none = .ok b₀ ∧
      a₀.performAll 0 wornClauses = .ok (a, replies) ∧
      b₀.performAll 0 wornClauses = .ok (b, replies) ∧
      a.net.db.arena.size = 4 ∧ b.net.db.arena.size = 8 ∧ a.Twin b := by
  have found : ∃ a₀ ∈ (create {} true none).toOption,
      ∃ b₀ ∈ (create { garbageFraction := 0.7 } true none).toOption,
      ∃ a ∈ (a₀.playThrough 0 wornClauses).toOption,
      ∃ b ∈ (b₀.playThrough 0 wornClauses).toOption,
        a.1.net.db.arena.size = 4 ∧ b.1.net.db.arena.size = 8 := by
    decide +kernel
  obtain ⟨a₀, created, b₀, created', ⟨a, replies⟩, ran, ⟨b, replies'⟩, ran', sizes⟩ := found
  have created := eq_ok_of_toOption created
  have created' := eq_ok_of_toOption created'
  have ran := playThrough_eq ▸ eq_ok_of_toOption ran
  have ran' := playThrough_eq ▸ eq_ok_of_toOption ran'
  obtain ⟨rfl, twins⟩ := collection_transparent created created' ran ran'
  obtain ⟨a', b', left, right, t⟩ := twins wornClauses.length
  rw [List.take_length] at left right
  obtain ⟨rfl, -⟩ := Prod.mk.inj (Except.ok.inj (ran.symm.trans left))
  obtain ⟨rfl, -⟩ := Prod.mk.inj (Except.ok.inj (ran'.symm.trans right))
  exact ⟨a₀, b₀, a, b, replies', created, created', ran, ran', sizes.1, sizes.2, t⟩

end Cdcl.Solver
