import Cdcl.Literal

/-!
# Formulas

What clauses mean, stated without a solver.  A clause is a list of literals of which
one at least has to be true, and a formula is a list of clauses that have to be
satisfied together.

* `Satisfies`, `Models` and `Entails` are the meaning of clauses and formulas under
  total assignments;
* `UnitClosure` is what unit propagation derives, whatever the order of the steps:
  `UnitClosure.sound` says that every model that starts out right agrees with it.
-/

namespace Cdcl

/-- A value for every variable. -/
abbrev Assignment := Var → Bool

/-- The literal is true under the assignment. -/
def Lit.Holds (σ : Assignment) (l : Lit) : Prop := σ l.var = l.sign

/-- One of the literals is true. -/
def Satisfies (σ : Assignment) (c : List Lit) : Prop := ∃ l ∈ c, l.Holds σ

/-- Every clause is satisfied. -/
def Models (σ : Assignment) (f : List (List Lit)) : Prop := ∀ c ∈ f, Satisfies σ c

/-- Every model of the formula satisfies the clause. -/
def Entails (f : List (List Lit)) (c : List Lit) : Prop := ∀ σ, Models σ f → Satisfies σ c

/-- No assignment is a model. -/
def Unsatisfiable (f : List (List Lit)) : Prop := ∀ σ, ¬Models σ f

instance (σ : Assignment) (l : Lit) : Decidable (l.Holds σ) :=
  inferInstanceAs (Decidable (_ = _))

instance (σ : Assignment) (c : List Lit) : Decidable (Satisfies σ c) :=
  inferInstanceAs (Decidable (∃ l ∈ c, _))

instance (σ : Assignment) (f : List (List Lit)) : Decidable (Models σ f) :=
  inferInstanceAs (Decidable (∀ c ∈ f, _))

theorem Lit.holds_neg {σ : Assignment} {l : Lit} : (-l).Holds σ ↔ ¬l.Holds σ := by
  unfold Holds
  simp only [neg_var, neg_sign]
  cases σ l.var <;> cases l.sign <;> decide

theorem not_satisfies_nil (σ : Assignment) : ¬Satisfies σ [] := by
  simp [Satisfies]

theorem models_append {σ : Assignment} {f g : List (List Lit)} :
    Models σ (f ++ g) ↔ Models σ f ∧ Models σ g := by
  simp only [Models, List.mem_append]
  exact ⟨fun h => ⟨fun c m => h c (.inl m), fun c m => h c (.inr m)⟩,
    fun h c m => m.elim (h.1 c) (h.2 c)⟩

/-- The empty clause follows from what cannot be satisfied, and from nothing else. -/
theorem unsatisfiable_iff_entails_nil {f : List (List Lit)} :
    Unsatisfiable f ↔ Entails f [] :=
  ⟨fun h σ m => (h σ m).elim, fun h σ m => not_satisfies_nil σ (h σ m)⟩

/-! ## Unit propagation -/

/-- The literals that follow from a set of literals when every clause of which all
literals but one are false makes that one true. -/
inductive UnitClosure (f : List (List Lit)) (start : Lit → Prop) : Lit → Prop
  | start {l : Lit} : start l → UnitClosure f start l
  | unit {c : List Lit} {l : Lit} : c ∈ f → l ∈ c →
      (∀ m ∈ c, m ≠ l → UnitClosure f start (-m)) → UnitClosure f start l

/-- A model in which the starting literals are true makes the derived ones true. -/
theorem UnitClosure.sound {f : List (List Lit)} {start : Lit → Prop} {σ : Assignment}
    (model : Models σ f) (right : ∀ l, start l → l.Holds σ) {l : Lit}
    (h : UnitClosure f start l) : l.Holds σ := by
  induction h with
  | start given => exact right _ given
  | @unit c l stored _ _ others =>
      obtain ⟨m, inside, true_⟩ := model c stored
      by_cases same : m = l
      · exact same ▸ true_
      · exact absurd true_ (Lit.holds_neg.mp (others m inside same))

end Cdcl
