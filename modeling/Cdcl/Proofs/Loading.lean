import Cdcl.Solver.Loading
import Cdcl.Proofs.Intake

/-!
# Variables and texts

New variables keep the invariant, and so does loading a text, for the formula with the
clauses of the text.

`Ready` is what holds between the calls of a client: the invariant with the pending
conflict, which is pending above the root level only.
-/

namespace Cdcl.Solver

open Network (Regime)
open Dimacs (Item)

variable {g : Regime} {s s' : Solver} {v : Var}

/-- What holds between calls. -/
structure Ready (g : Regime) (s : Solver) : Prop where
  inv : s.Inv g s.pending none
  idle : s.level = 0 → s.pending = none

theorem Ready.descend {g' : Regime} (r : Ready g s) (inv : s'.Inv g' s'.pending none)
    (d : s.Descends s') : Ready g' s' := ⟨inv, d.idle r.idle⟩

theorem Ready.kin (r : Ready g s) (k : s.Kin s') : Ready g s' :=
  r.descend (k.pending ▸ k.inv r.inv) k.descends

/-! ## Variables -/

/-- Adding a variable keeps what holds between calls. -/
theorem Ready.newVar {spec : VarSpec} (r : Ready g s) (h : s.newVar spec = .ok (s', v)) :
    Ready g s' ∧ s.Descends s' := by
  obtain ⟨_, -, h⟩ := bind_eq_ok.mp h
  obtain ⟨order, added, h⟩ := bind_eq_ok.mp h
  cases h
  have i := r.inv
  have fresh : (⟨s.numVars⟩ : Var).index = s.net.trail.numVars := rfl
  have lists : (s.net.addVar ⟨s.numVars⟩ spec.observed).Lists = s.net.Lists :=
    Network.lists_addVar i.net.wf.watched.size fresh
  have inv : ∀ info seen, { s with
      net := s.net.addVar ⟨s.numVars⟩ spec.observed, order, info, seen }.Inv g s.pending none := by
    intro info seen
    refine ⟨?_, i.refutes, Order.covers_addVar i.covers fresh added, i.refuted⟩
    rw [lists]
    exact ⟨i.net.wf.addVar fresh, fun on => (i.net.sound on).addVar i.net.wf.trail fresh,
      fun on => Network.Closed.addVar (i.net.closed on),
      fun on => Network.Processed.addVar (i.net.processed on),
      fun on => (i.net.represents on).addVar fresh⟩
  have same : ∀ info seen m, s.Descends ({ s with
      net := s.net.addVar ⟨s.numVars⟩ spec.observed, order, info, seen }.log m) :=
    fun _ _ _ => .of_eq rfl rfl
  exact ⟨r.descend ((kin_log rfl _).inv (inv _ _)) (same _ _ _), same _ _ _⟩

theorem Ready.newVars {spec : VarSpec} {n : Nat} (r : Ready g s)
    (h : newVars spec n s = .ok s') : Ready g s' ∧ s.Descends s' := by
  induction n generalizing s with
  | zero =>
      cases h
      exact ⟨r, .of_eq rfl rfl⟩
  | succ n ih =>
      obtain ⟨⟨s₁, v⟩, added, h⟩ := bind_eq_ok.mp h
      obtain ⟨r₁, d₁⟩ := r.newVar added
      obtain ⟨r₂, d₂⟩ := ih r₁ h
      exact ⟨r₂, d₁.trans d₂⟩

theorem Ready.varOfIndex {i : Nat} (r : Ready g s) (h : s.varOfIndex i = .ok (s', v)) :
    Ready g s' ∧ s.Descends s' := by
  obtain ⟨s₁, added, h⟩ := bind_eq_ok.mp h
  obtain ⟨_, -, h⟩ := bind_eq_ok.mp h
  cases h
  exact r.newVars added

/-! ## Texts -/

/-- By induction over the literals, so does adding their variables. -/
theorem Ready.mention {ls : List Lit} (r : Ready g s) (h : s.mention ls = .ok s') :
    Ready g s' ∧ s.Descends s' := by
  induction ls generalizing s with
  | nil =>
      cases h
      exact ⟨r, .of_eq rfl rfl⟩
  | cons l ls ih =>
      obtain ⟨⟨s₁, v⟩, added, h⟩ := bind_eq_ok.mp h
      obtain ⟨r₁, d₁⟩ := r.varOfIndex added
      obtain ⟨r₂, d₂⟩ := ih r₁ h
      exact ⟨r₂, d₁.trans d₂⟩

/-- The clause that an item submits. -/
def clauseOf : Item → Option (List Lit)
  | .clause lits => some lits
  | _ => none

/-- Clauses may be added one after the other: at the root level, or if nothing has to
follow and all levels are settled. -/
def Welcomes (g : Regime) (s : Solver) : Prop :=
  s.level = 0 ∨ (¬g.sound ∧ ∀ k, g.settled k)

/-- Once the solver is at the root level it stays there, so that more clauses are welcome. -/
theorem Welcomes.descend {f : List (List Lit)} (w : Welcomes g s) (d : s.Descends s') :
    Welcomes (g.more f) s' := by
  rcases w with root | free
  · exact .inl (Nat.le_zero.mp (root ▸ d.level))
  · exact .inr free

/-- A clause of a text joins the formula. -/
theorem Ready.loadItem {item : Item} (r : Ready g s) (w : Welcomes g s)
    (h : s.loadItem item = .ok s') :
    Ready (g.more (clauseOf item).toList) s' ∧ s.Descends s' := by
  cases item with
  | comment =>
      cases h
      rw [show clauseOf .comment = none from rfl, Option.toList_none, Regime.more_nil]
      exact ⟨r, .of_eq rfl rfl⟩
  | header vars clauses =>
      cases h
      rw [show clauseOf (.header vars clauses) = none from rfl, Option.toList_none,
        Regime.more_nil]
      exact ⟨r.kin (kin_log rfl _), (kin_log rfl _).descends⟩
  | clause lits =>
      obtain ⟨s₁, answer, left, mentioned, reported⟩ := loadItem_clause_eq_ok h
      obtain ⟨r₁, d₁⟩ := r.mention mentioned
      have w₁ : Welcomes g s₁ := Regime.more_nil g ▸ w.descend d₁
      have adds := r₁.inv.addClause r₁.idle ?_ ?_ reported
      · exact ⟨r₁.descend adds.inv adds.descends, d₁.trans adds.descends⟩
      · intro on _ high
        rcases w₁ with root | ⟨off, -⟩
        · omega
        · exact absurd on off
      · intro _ lower
        rcases w₁ with root | ⟨-, free⟩
        · omega
        · exact free _

/-- By induction over the items, all clauses of a text join the formula. -/
theorem Ready.loadItems {items : List Item} (r : Ready g s) (w : Welcomes g s)
    (h : s.loadItems items = .ok s') :
    Ready (g.more (items.filterMap clauseOf)) s' ∧ s.Descends s' := by
  induction items generalizing g s with
  | nil =>
      cases h
      exact ⟨(Regime.more_nil g).symm ▸ r, .of_eq rfl rfl⟩
  | cons item items ih =>
      obtain ⟨s₁, loaded, h⟩ := bind_eq_ok.mp h
      obtain ⟨r₁, d₁⟩ := r.loadItem w loaded
      obtain ⟨r₂, d₂⟩ := ih r₁ (w.descend d₁) h
      have same : (item :: items).filterMap clauseOf =
          (clauseOf item).toList ++ items.filterMap clauseOf := by
        cases e : clauseOf item <;> simp [e]
      rw [same, Regime.more_append]
      exact ⟨r₂, d₁.trans d₂⟩

/-- Loading a text keeps what holds between calls, for the formula with its clauses. -/
theorem Ready.load {strict : Bool} {bs : List UInt8} {error : Option Dimacs.ReadError}
    (r : Ready g s) (w : Welcomes g s) (h : s.load strict bs = .ok (s', error)) :
    Ready (g.more ((Dimacs.read strict bs).items.filterMap clauseOf)) s' ∧ s.Descends s' := by
  obtain ⟨s₁, loaded, h⟩ := bind_eq_ok.mp h
  obtain ⟨s₂, mentioned, h⟩ := bind_eq_ok.mp h
  cases h
  obtain ⟨r₁, d₁⟩ := r.loadItems w loaded
  obtain ⟨r₂, d₂⟩ := r₁.mention mentioned
  exact ⟨r₂, d₁.trans d₂⟩

end Cdcl.Solver
