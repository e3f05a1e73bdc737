import Mathlib.Logic.Relation
import Cdcl.Propagation

/-!
# What propagation consists of

Propagation does three things to a network: it rearranges clauses and watch lists, it makes
literals true, and it moves the head of the queue.  `Drift` is one of these, and whatever each of
them keeps is kept by a propagation, `drifts_drain`.
-/

namespace Cdcl.Network

variable {n n' : Network} {p : Lit} {conflict : Option ClauseId}

/-- One thing that propagation does. -/
inductive Drift (n : Network) : Network → Prop
  /-- Clauses and watch lists are rearranged. -/
  | relist {db : Database} {watches : DenseMap Lit (Array Watcher)} :
      Drift n { n with db, watches }
  /-- A literal becomes true. -/
  | enqueue {n' : Network} {p : Lit} {r : Reason} : n.enqueue p r = .ok n' → Drift n n'
  /-- The head of the queue moves. -/
  | head {i : Nat} : i ≤ n.trail.lits.size →
      Drift n { n with trail := { n.trail with head := i } }

/-- Any number of them. -/
abbrev Drifts : Network → Network → Prop := Relation.ReflTransGen Drift

/-- A visit to a watcher is made of drifts, one for each case. -/
theorem drifts_visit {w : Watcher} {v : Visit} (h : n.visit p w = .ok (n', v)) :
    n.Drifts n' := by
  obtain ⟨_, -, h⟩ := bind_eq_ok.mp h
  split at h
  · cases h
    exact .refl
  obtain ⟨_, -, h⟩ := bind_eq_ok.mp h
  obtain ⟨_, -, h⟩ := bind_eq_ok.mp h
  obtain ⟨_, -, h⟩ := bind_eq_ok.mp h
  simp only at h
  split at h
  · obtain ⟨_, -, h⟩ := bind_eq_ok.mp h
    cases h
    exact .single .relist
  obtain ⟨found, -, h⟩ := bind_eq_ok.mp h
  cases found with
  | some parts =>
      obtain ⟨_, -, h⟩ := bind_eq_ok.mp h
      obtain ⟨_, -, h⟩ := bind_eq_ok.mp h
      obtain ⟨_, watching, h⟩ := bind_eq_ok.mp h
      obtain ⟨_, -, watching⟩ := bind_eq_ok.mp watching
      cases watching
      cases h
      exact .single .relist
  | none =>
      obtain ⟨_, -, h⟩ := bind_eq_ok.mp h
      split at h
      · cases h
        exact .single .relist
      · obtain ⟨_, assigned, h⟩ := bind_eq_ok.mp h
        cases h
        exact .tail (.single .relist) (.enqueue assigned)

/-- The walk along a list of watchers is made of drifts. -/
theorem drifts_scan {kept kept' : Array Watcher} {ws : List Watcher}
    (h : n.scan p kept ws = .ok (n', kept', conflict)) : n.Drifts n' := by
  induction ws generalizing n kept with
  | nil =>
      cases h
      exact .refl
  | cons w ws ih =>
      obtain ⟨⟨n₁, v⟩, visited, h⟩ := bind_eq_ok.mp h
      have first := drifts_visit visited
      cases v with
      | keep => exact first.trans (ih h)
      | moved => exact first.trans (ih h)
      | conflict =>
          cases h
          exact first

theorem drifts_visitAll (h : n.visitAll p = .ok (n', conflict)) : n.Drifts n' := by
  obtain ⟨_, _, n₁, _, _, _, -, -, scanned, -, -, -, rfl⟩ := visitAll_eq_ok h
  have emptied := Relation.ReflTransGen.head (Drift.relist (n := n)) (drifts_scan scanned)
  exact emptied.tail .relist

/-- The whole propagation is made of drifts. -/
theorem drifts_drain {fuel count count' : Nat}
    (h : drain fuel n count = .ok (n', conflict, count')) : n.Drifts n' := by
  induction fuel generalizing n count with
  | zero =>
      unfold drain at h
      split at h
      · cases h
        exact .refl
      · cases h
  | succ fuel ih =>
      unfold drain at h
      split at h
      next =>
        cases h
        exact .refl
      next q here =>
        obtain ⟨⟨n₁, found⟩, visited, h⟩ := bind_eq_ok.mp h
        have low : n.trail.head + 1 ≤ n.trail.lits.size := (Array.getElem?_eq_some_iff.mp here).1
        have first := Relation.ReflTransGen.head (Drift.head low) (drifts_visitAll visited)
        cases found with
        | some id =>
            cases h
            exact first.tail (.head (Nat.le_refl _))
        | none => exact first.trans (ih h)

end Cdcl.Network
