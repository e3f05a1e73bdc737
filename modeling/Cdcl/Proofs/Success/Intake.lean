import Cdcl.Proofs.Success.Learning

/-!
# Adding variables and clauses without a fault

At the root level a clause over the variables of the solver is added without a fault: the
literals that are kept have no value there.  Loading a text creates the variables that it
mentions before it adds a clause.

* `newVar_sane`, `varOfIndex_sane`, `mention_sane` — variables, of which there may become
  too many;
* `addClause_sane`, `load_sane` — clauses and texts.
-/

namespace Cdcl.Solver

open Network (Regime)
open Dimacs (Item)

variable {g : Regime} {e : Fault → Prop} {s s' : Solver} {v : Var} {lits : List Lit}

/-! ## Variables -/

/-- Only an index that is too large names no variable. -/
theorem failsOnly_make {i : Nat} (excused : ∀ f : Fault, f.Excused → e f) :
    FailsOnly e (Var.make i) :=
  .ite (fun _ => .ok _) fun _ => .throw (excused _ trivial)

/-- A variable can be added unless there are too many. -/
theorem newVar_sane {spec : VarSpec} (excused : ∀ f : Fault, f.Excused → e f)
    (r : Ready g s) (x : s.Sane) : Gives e (fun r => r.1.Sane) (s.newVar spec) where
  failsOnly := by
    refine .bind (failsOnly_make excused) fun _ _ => ?_
    exact .bind (Order.failsOnly_addVar (excused _ trivial) x.fitted.order rfl) fun _ _ => .ok _
  holds _ h := x.moves r.inv.core (newVar_moves r.inv.net.wf.watched.size h)

theorem newVars_sane {spec : VarSpec} {n : Nat} (excused : ∀ f : Fault, f.Excused → e f)
    (r : Ready g s) (x : s.Sane) : Gives e Sane (newVars spec n s) := by
  induction n generalizing s with
  | zero => exact .ok x
  | succ n ih =>
      exact .step (newVar_sane excused r x) fun ⟨s₁, _⟩ added x₁ => ih (r.newVar added).1 x₁

theorem varOfIndex_sane {i : Nat} (excused : ∀ f : Fault, f.Excused → e f)
    (r : Ready g s) (x : s.Sane) : Gives e (fun r => r.1.Sane) (s.varOfIndex i) :=
  .step (newVars_sane excused r x) fun _ _ x₁ => .bind (failsOnly_make excused) fun _ _ => .ok x₁

/-- Variables can be added as far as literals mention them. -/
theorem mention_sane (excused : ∀ f : Fault, f.Excused → e f) (r : Ready g s) (x : s.Sane) :
    Gives e Sane (s.mention lits) := by
  induction lits generalizing s with
  | nil => exact .ok x
  | cons l ls ih =>
      exact .step (varOfIndex_sane excused r x) fun ⟨s₁, _⟩ found x₁ =>
        ih (r.varOfIndex found).1 x₁

theorem numVars_newVar {spec : VarSpec} (h : s.newVar spec = .ok (s', v)) :
    s'.numVars = s.numVars + 1 := by
  obtain ⟨_, -, h⟩ := bind_eq_ok.mp h
  obtain ⟨_, -, h⟩ := bind_eq_ok.mp h
  cases h
  exact Trail.numVars_addVar rfl

/-- As many variables are added as are asked for. -/
theorem numVars_newVars {spec : VarSpec} {n : Nat} (h : newVars spec n s = .ok s') :
    s'.numVars = s.numVars + n := by
  induction n generalizing s with
  | zero =>
      cases h
      rfl
  | succ n ih =>
      obtain ⟨⟨s₁, _⟩, added, h⟩ := bind_eq_ok.mp h
      rw [ih h, numVars_newVar added, Nat.add_right_comm, Nat.add_assoc]

/-- Variables are added up to the index, if they are missing. -/
theorem numVars_varOfIndex {i : Nat} (h : s.varOfIndex i = .ok (s', v)) :
    s'.numVars = max s.numVars (i + 1) := by
  obtain ⟨s₁, added, h⟩ := bind_eq_ok.mp h
  obtain ⟨_, -, h⟩ := bind_eq_ok.mp h
  cases h
  rw [numVars_newVars added]
  omega

/-- Literals that have been mentioned are of variables of the solver. -/
theorem mention_known (h : s.mention lits = .ok s') :
    s.numVars ≤ s'.numVars ∧ ∀ l ∈ lits, l.var.index < s'.numVars := by
  induction lits generalizing s with
  | nil =>
      cases h
      exact ⟨Nat.le_refl _, by simp⟩
  | cons l ls ih =>
      obtain ⟨⟨s₁, _⟩, found, h⟩ := bind_eq_ok.mp h
      have size := numVars_varOfIndex found
      obtain ⟨more, known⟩ := ih h
      refine ⟨by omega, fun m hm => ?_⟩
      rcases List.mem_cons.mp hm with rfl | later
      · omega
      · exact known m later

/-! ## Clauses at the root level -/

theorem failsOnly_rootValue {t : Trail} {l : Lit} (w : t.WF) (low : l.var.index < t.numVars) :
    FailsOnly e (t.rootValue l) := by
  refine .bind (Trail.failsOnly_litValue low) fun _ _ => ?_
  exact .bind (Trail.failsOnly_levelOf w low) fun _ _ => .ite (fun _ => .ok _) fun _ => .ok _

/-- Dropping literals looks up their values at the root level only. -/
theorem failsOnly_normalizeFrom {t : Trail} {kept : List Lit} (w : t.WF)
    (known : ∀ l ∈ lits, l.var.index < t.numVars) : FailsOnly e (normalizeFrom t kept lits) := by
  induction lits generalizing kept with
  | nil => exact .ok _
  | cons l ls ih =>
      have later : ∀ m ∈ ls, m.var.index < t.numVars := fun m hm =>
        known m (List.mem_cons_of_mem l hm)
      refine .bind (failsOnly_rootValue w (known l List.mem_cons_self)) fun _ _ => ?_
      exact .ite (fun _ => .ok _) fun _ => .ite (fun _ => ih later) fun _ => ih later

/-- At the root level, what has no value there has none at all. -/
theorem litValue_of_root {t : Trail} {l : Lit} (w : t.WF) (root : t.level = 0)
    (open_ : t.rootValue l = .ok .unknown) : t.litValue l = .ok .unknown := by
  obtain ⟨y, j, value, level, same⟩ := rootValue_eq_ok.mp open_
  have known : ∀ m ∈ t.lits, m.var = l.var → y = .unknown := by
    intro m inside var
    have bound := w.levelOf_le inside (var ▸ level)
    rw [if_pos (by omega)] at same
    exact same.symm
  cases y with
  | unknown => exact value
  | holds => exact absurd (known l (w.holds_iff.mp value) rfl) (by simp)
  | fails => exact absurd (known (-l) (w.fails_iff.mp value) rfl) (by simp)

/-- A fact without a value can be assigned and propagated. -/
theorem assertUnit_sane {l : Lit} (i : s.Inv g none none) (x : s.Sane) (root : s.level = 0)
    (fact : g.sound → Entails g.formula [l]) (free : s.litValue l = .ok .unknown) :
    Gives e (fun r => r.1.Sane) (s.assertUnit l) := by
  have assigns : FailsOnly e (s.net.enqueue l .decision) :=
    Network.failsOnly_enqueue i.core.trail (x.sized i.net.wf) free
  refine .bind (failsOnly_updateNet assigns) fun s₁ asserted => ?_
  obtain ⟨n, assigned, rfl⟩ := updateNet_eq_ok.mp asserted
  obtain ⟨i₁, -⟩ := i.enqueueFact root fact (Network.enqueued assigned)
  have x₁ := x.moves i.core (lead_moves (.inl root) assigned)
  refine .step (propagateAll_sane i₁ x₁) fun ⟨s₂, conflict⟩ _ x₂ => ?_
  cases conflict with
  | none => exact .ok x₂
  | some id => exact .ok (x₂.congr rfl rfl rfl rfl fun c => c)

/-- At the root level, what is left of a clause has no value. -/
theorem addAtRoot_sane (excused : ∀ f : Fault, f.Excused → e f) (i : s.Inv g none none)
    (x : s.Sane) (root : s.level = 0) (known : ∀ l ∈ lits, l.var.index < s.numVars) :
    Gives e (fun r => r.1.Sane) (s.addAtRoot lits) := by
  have w := i.core.trail
  have knownSorted : ∀ l ∈ Lit.sort lits, l.var.index < s.numVars := fun l hl =>
    known l ((sort_perm lits).mem_iff.mp hl)
  refine .bind (failsOnly_normalizeFrom w knownSorted) fun normal normalized => ?_
  have spec := normalize_spec w normalized
  split
  · exact .ok x
  · exact .ok (x.congr rfl rfl rfl rfl fun c => c)
  next l =>
    have kept : Kept s.net.trail lits [l] := spec
    have free := litValue_of_root w root (open_of_normalizeFrom normalized (by simp) l (by simp))
    have i₁ : s.Inv { g with formula := g.formula ++ [lits] } none none :=
      i.formula fun _ entailed => entailed.append [lits]
    have fact : g.sound → Entails (g.formula ++ [lits]) [l] := fun on =>
      kept.entails (i₁.net.sound on) (entails_of_mem (by simp))
    exact .step (assertUnit_sane i₁ x root fact free) fun ⟨s₁, _⟩ _ x₁ => .ok x₁
  next c none_ single =>
    have kept : Kept s.net.trail lits c := spec
    have low := index_lt_of_normalize normalized
    have two : 2 ≤ c.length := by
      obtain ⟨p, q, others, rfl⟩ := exists_two none_ single
      exact Nat.le_add_left 2 _
    have z := x.sized i.net.wf
    refine .bind (Network.failsOnly_addClause (excused _ trivial) z two low) fun ⟨n, id⟩ added => ?_
    exact .ok (x.moves i.core (addClause_moves kept.once low added))

/-- A clause over the variables of the solver can be added at the root level. -/
theorem addClause_sane (excused : ∀ f : Fault, f.Excused → e f) (r : Ready g s) (x : s.Sane)
    (root : s.level = 0) (known : ∀ l ∈ lits, l.var.index < s.numVars) :
    Gives e (fun r => r.1.Sane) (s.addClauseReporting lits) := by
  refine .ite (fun _ => .ok x) fun _ => ?_
  have i : s.Inv g none none := r.idle root ▸ r.inv
  have logged : (s.log (.addAtRoot lits)).Inv g none none := (kin_log rfl s).inv i
  have x₀ := x.moves i.core (log_moves s (.addAtRoot lits))
  rw [if_pos root]
  exact addAtRoot_sane excused logged x₀ root known

/-! ## Texts -/

/-- The variables of an item are mentioned before its clause is added. -/
theorem loadItem_sane {item : Item} (excused : ∀ f : Fault, f.Excused → e f) (r : Ready g s)
    (x : s.Sane) (root : s.level = 0) : Gives e Sane (s.loadItem item) := by
  cases item with
  | comment => exact .ok x
  | header vars clauses => exact .ok (x.moves r.inv.core (log_moves s _))
  | clause lits =>
      refine .step (mention_sane excused r x) fun s₁ mentioned x₁ => ?_
      obtain ⟨r₁, d₁⟩ := r.mention mentioned
      have root₁ : s₁.level = 0 := Nat.le_zero.mp (root ▸ d₁.level)
      have adds := addClause_sane excused r₁ x₁ root₁ (mention_known mentioned).2
      refine .step (p := fun r => r.1.Sane) ?_ fun ⟨s₂, _⟩ _ x₂ => .ok x₂
      exact .step adds fun ⟨s₂, _, _⟩ _ x₂ => .ok x₂

theorem loadItems_sane {items : List Item} (excused : ∀ f : Fault, f.Excused → e f)
    (r : Ready g s) (x : s.Sane) (root : s.level = 0) : Gives e Sane (s.loadItems items) := by
  induction items generalizing g s with
  | nil => exact .ok x
  | cons item items ih =>
      refine .step (loadItem_sane excused r x root) fun s₁ loaded x₁ => ?_
      obtain ⟨r₁, d₁⟩ := r.loadItem (.inl root) loaded
      exact ih r₁ x₁ (Nat.le_zero.mp (root ▸ d₁.level))

/-- A text can be loaded at the root level, whatever it says. -/
theorem load_sane {strict : Bool} {bs : List UInt8} (excused : ∀ f : Fault, f.Excused → e f)
    (r : Ready g s) (x : s.Sane) (root : s.level = 0) :
    Gives e (fun r => r.1.Sane) (s.load strict bs) := by
  refine .step (loadItems_sane excused r x root) fun s₁ loaded x₁ => ?_
  have r₁ := (r.loadItems (.inl root) loaded).1
  exact .step (mention_sane excused r₁ x₁) fun s₂ _ x₂ => .ok x₂

end Cdcl.Solver
