import Cdcl.Proofs.Faults
import Cdcl.Proofs.Keys

/-!
# Computations that succeed

`FailsOnly e x` says that the computation `x` fails with faults of the kind `e` only.  A
lemma that holds for any `e` says that the computation does not fail at all,
`FailsOnly.exists_ok`.

* `FailsOnly.bind` — a computation is as good as its steps, where each step may count on
  the results of those before it, and `FailsOnly.bind_ok` — a step whose answer is known;
* `FailsOnly.mapM`, `FailsOnly.filterM` — the loops over a list;
* `Gives` — a condition on the answer goes with it, for the computations that are steps of
  others;
* `DenseMap.failsOnly_get` and the like — the covered keys of a map.
-/

namespace Cdcl

variable {α β : Type} {e : Fault → Prop}

/-- The computation fails with faults of the given kind only. -/
def FailsOnly (e : Fault → Prop) (x : Except Fault α) : Prop := ∀ f, x = .error f → e f

namespace FailsOnly

variable {x : Except Fault α}

theorem ok (a : α) : FailsOnly e (.ok a) := fun _ failed => nomatch failed

theorem of_eq {a : α} (h : x = .ok a) : FailsOnly e x := h ▸ ok a

theorem throw {f : Fault} (h : e f) : FailsOnly e (.error f : Except Fault α) := fun _ failed => by
  cases failed
  exact h

theorem bind {f : α → Except Fault β} (first : FailsOnly e x)
    (next : ∀ a, x = .ok a → FailsOnly e (f a)) : FailsOnly e (x >>= f) := by
  cases x with
  | error fault => exact throw (first fault rfl)
  | ok a => exact next a rfl

/-- A step whose answer is known. -/
theorem bind_ok {f : α → Except Fault β} {a : α} (h : x = .ok a) (next : FailsOnly e (f a)) :
    FailsOnly e (x >>= f) := by
  subst h
  exact next

/-- What fails with no fault has a result. -/
theorem exists_ok (h : FailsOnly (fun _ => False) x) : ∃ a, x = .ok a := by
  cases x with
  | error fault => exact (h fault rfl).elim
  | ok a => exact ⟨a, rfl⟩

theorem ite {y : Except Fault α} {c : Prop} [Decidable c] (yes : c → FailsOnly e x)
    (no : ¬c → FailsOnly e y) : FailsOnly e (if c then x else y) := by
  split
  · exact yes ‹_›
  · exact no ‹_›

theorem ensure {c : Bool} (h : c = true) : FailsOnly e (ensure c) :=
  of_eq (a := ()) (ensure_eq_ok.mpr h)

theorem checkedSub {a b : Nat} (h : b ≤ a) : FailsOnly e (checkedSub a b) := of_eq (if_pos h)

/-- A walk along a list fails only as its steps may. -/
theorem mapM {f : α → Except Fault β} {l : List α} (h : ∀ a ∈ l, FailsOnly e (f a)) :
    FailsOnly e (l.mapM f) := by
  induction l with
  | nil => exact ok []
  | cons a l ih =>
      rw [List.mapM_cons]
      exact bind (h a List.mem_cons_self) fun b _ =>
        bind (ih fun a' later => h a' (List.mem_cons_of_mem a later)) fun bs _ => ok _

theorem filterM {f : α → Except Fault Bool} {l : List α} (h : ∀ a ∈ l, FailsOnly e (f a)) :
    FailsOnly e (l.filterM f) := by
  have walk : ∀ acc, FailsOnly e (List.filterAuxM f l acc) := by
    induction l with
    | nil => exact ok
    | cons a l ih =>
        exact fun acc => bind (h a List.mem_cons_self) fun b _ =>
          ih (fun a' later => h a' (List.mem_cons_of_mem a later)) _
  exact bind (walk []) fun _ _ => ok _

end FailsOnly

/-- The computation fails with faults of the given kind only, and what it answers is as `p`
says. -/
structure Gives (e : Fault → Prop) (p : α → Prop) (x : Except Fault α) : Prop where
  failsOnly : FailsOnly e x
  holds : ∀ a, x = .ok a → p a

namespace Gives

variable {x : Except Fault α} {p : α → Prop}

/-- A known answer that is as it should be. -/
theorem ok {a : α} (h : p a) : Gives e p (.ok a) where
  failsOnly := .ok a
  holds a' same := by
    cases same
    exact h

theorem throw {f : Fault} (h : e f) : Gives e p (.error f : Except Fault α) where
  failsOnly := .throw h
  holds _ same := nomatch same

/-- A step of which only the faults are of interest. -/
theorem bind {f : α → Except Fault β} {q : β → Prop} (first : FailsOnly e x)
    (next : ∀ a, x = .ok a → Gives e q (f a)) : Gives e q (x >>= f) where
  failsOnly := first.bind fun a h => (next a h).failsOnly
  holds b h := by
    obtain ⟨a, h₁, h₂⟩ := bind_eq_ok.mp h
    exact (next a h₁).holds b h₂

/-- A step on whose answer the next one counts. -/
theorem step {f : α → Except Fault β} {q : β → Prop} (first : Gives e p x)
    (next : ∀ a, x = .ok a → p a → Gives e q (f a)) : Gives e q (x >>= f) :=
  bind first.failsOnly fun a h => next a h (first.holds a h)

theorem ite {y : Except Fault α} {c : Prop} [Decidable c] (yes : c → Gives e p x)
    (no : ¬c → Gives e p y) : Gives e p (if c then x else y) := by
  split
  · exact yes ‹_›
  · exact no ‹_›

end Gives

namespace DenseMap

variable {κ : Type} [DenseKey κ] {m : DenseMap κ α} {k : κ}

theorem failsOnly_get (low : DenseKey.toIndex k < m.size) : FailsOnly e (m.get k) :=
  have ⟨_, read⟩ := exists_get.mpr low
  .of_eq read

theorem failsOnly_set {x : α} (low : DenseKey.toIndex k < m.size) : FailsOnly e (m.set k x) :=
  .of_eq (dif_pos low)

theorem failsOnly_modify {f : α → α} (low : DenseKey.toIndex k < m.size) :
    FailsOnly e (m.modify k f) :=
  .of_eq (if_pos low)

end DenseMap

end Cdcl
