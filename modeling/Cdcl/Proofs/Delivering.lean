import Cdcl.Proofs.Reading
import Cdcl.Proofs.Telling

/-!
# What loading a text comes to

A text is read without regard to the solver that it is loaded into.  So loading it is adding
the clauses that were read, one after the other, but for the messages about headers.

* `Item.calls`, `Reading.calls` — the calls that items and readings come to;
* `Retold.loadItem`, `Retold.loadItems` — items do what their calls do;
* `load_eq` — so does a text, and the answer is the error of its reading;
* `Reaches.failsOnly_load` — in a run, what may be missing for that is room;
* `load_exact` — the reading and the loading of any text together.
-/

namespace Cdcl

/-- The calls that create the variables of literals. -/
def mentions (lits : List Lit) : List Call := lits.map fun l => .varOfIndex l.var.index

/-- The calls that add what an item says. -/
def Dimacs.Item.calls : Item → List Call
  | .clause lits => mentions lits ++ [.addClause lits]
  | _ => []

/-- The calls that come of a reading: clause after clause is added, with its variables, and
of a clause that is not finished the variables are created. -/
def Dimacs.Reading.calls (r : Reading) : List Call :=
  r.items.flatMap Item.calls ++ mentions r.unfinished

namespace Solver

open Network (Regime)
open Dimacs (Item Reading)

variable {g : Regime} {e : Fault → Prop} {s s' : Solver} {fuel i : Nat} {lits : List Lit}
  {calls more : List Call}

/-- The state that calls lead to. -/
def after (fuel : Nat) (s : Solver) (calls : List Call) : Except Fault Solver :=
  (s.performAll fuel calls).map Prod.fst

/-- The state after several calls is that after the others, begun in the state after the first. -/
theorem after_cons {c : Call} : s.after fuel (c :: calls) =
    (s.perform fuel c >>= fun r => r.1.after fuel calls) := by
  unfold after
  rw [performAll]
  cases s.perform fuel c with
  | error f => rfl
  | ok r =>
      change Except.map Prod.fst (r.1.performAll fuel calls >>= _) =
        (r.1.performAll fuel calls).map Prod.fst
      cases r.1.performAll fuel calls with
      | error f => rfl
      | ok r' => rfl

/-- Calls may be carried out in two goes. -/
theorem after_append : s.after fuel (calls ++ more) =
    (s.after fuel calls >>= fun s => s.after fuel more) := by
  induction calls generalizing s with
  | nil => rfl
  | cons c calls ih =>
      rw [List.cons_append, after_cons, after_cons, bind_assoc]
      exact congrArg _ (funext fun r => ih)

/-! ## The same but for the messages -/

namespace Retold

/-- A new variable is the same, whatever has been logged. -/
theorem newVar {spec : VarSpec} (t : s.Retold s') :
    Abreast (Beside Retold) (s.newVar spec) (s'.newVar spec) := by
  obtain ⟨⟨told⟩⟩ := t
  refine .same fun _ => .same fun order => .ok ⟨?_, rfl⟩
  refine log ?_ _ _
  exact .mk (.mk told)

theorem newVars {spec : VarSpec} {n : Nat} (t : s.Retold s') :
    Abreast Retold (Solver.newVars spec n s) (Solver.newVars spec n s') := by
  induction n generalizing s s' with
  | zero => exact .ok t
  | succ n ih => exact .step t.newVar fun s₁ s₁' _ t₁ => ih t₁

/-- As many variables are missing, whatever has been logged. -/
theorem varOfIndex (t : s.Retold s') :
    Abreast (Beside Retold) (s.varOfIndex i) (s'.varOfIndex i) := by
  have grown : Abreast Retold (Solver.newVars {} (i + 1 - s.numVars) s)
      (Solver.newVars {} (i + 1 - s.numVars) s') := t.newVars
  obtain ⟨⟨told⟩⟩ := t
  exact .bind grown fun s₁ s₁' t₁ => .same fun v => .ok ⟨t₁, rfl⟩

end Retold

/-! ## A text and the calls it stands for -/

/-- The variables of literals may be added by calls of their own. -/
theorem Retold.mention (t : s.Retold s') :
    Abreast Retold (s.mention lits) (s'.after fuel (mentions lits)) := by
  induction lits generalizing s s' with
  | nil => exact .ok t
  | cons l lits ih =>
      rw [mentions, List.map_cons, after_cons]
      unfold perform
      rw [bind_assoc]
      exact .step t.varOfIndex fun s₁ s₁' v t₁ => ih t₁

/-- What an item says may be carried out as calls. -/
theorem Retold.loadItem {item : Item} (t : s.Retold s') :
    Abreast Retold (s.loadItem item) (s'.after fuel item.calls) := by
  cases item with
  | comment => exact .ok t
  | header vars clauses =>
      obtain ⟨⟨told⟩⟩ := t
      exact .ok (.mk (.mk ((Journal.hushed_log _ _).symm ▸ told)))
  | clause lits =>
      rw [Item.calls, after_append]
      refine .bind t.mention fun s₁ s₁' t₁ => ?_
      rw [after_cons]
      unfold perform Solver.addClause
      rw [bind_assoc, bind_assoc]
      exact .bind (t₁.addClauseReporting fun _ => .rfl) fun a b both => .ok both.1

theorem Retold.loadItems {items : List Item} (t : s.Retold s') :
    Abreast Retold (s.loadItems items) (s'.after fuel (items.flatMap Item.calls)) := by
  induction items generalizing s s' with
  | nil => exact .ok t
  | cons item items ih =>
      rw [List.flatMap_cons, after_append]
      exact .bind t.loadItem fun s₁ s₁' t₁ => ih t₁

/-- Loading a text does what the calls do that come of reading it, in whatever state, and
answers with the error of the reading. -/
theorem load_eq (s : Solver) (fuel : Nat) (strict : Bool) (bs : List UInt8) :
    (s.load strict bs).map (Prod.map hushed id) =
      (s.performAll fuel (Dimacs.read strict bs).calls).map fun r =>
        (r.1.hushed, (Dimacs.read strict bs).error) := by
  have told : s.Retold s := .mk (.refl _)
  have loads : Abreast (fun a b => a.1.Retold b ∧ a.2 = (Dimacs.read strict bs).error)
      (s.load strict bs) (s.after fuel (Dimacs.read strict bs).calls) := by
    rw [Reading.calls, after_append, ← bind_pure (_ >>= _), bind_assoc]
    refine .bind told.loadItems fun s₁ s₁' t₁ => ?_
    exact .bind t₁.mention fun s₂ s₂' t₂ => .ok ⟨t₂, rfl⟩
  have same := loads.map_eq (f := Prod.map hushed id)
    (g := fun s => (s.hushed, (Dimacs.read strict bs).error))
    fun a b both => Prod.ext both.1.hushed both.2.symm
  rw [← same, after]
  cases s.performAll fuel (Dimacs.read strict bs).calls with
  | error f => rfl
  | ok r => rfl

/-! ## Faults -/

/-- By induction over the items; the clauses need not follow from anything. -/
theorem failsOnly_loadItems {items : List Item} (excused : ∀ f : Fault, f.Excused → e f)
    (r : Ready g s) (x : s.Sane) (unsound : ¬g.sound) (free : ∀ k, g.settled k) :
    FailsOnly e (s.loadItems items) := by
  induction items generalizing g s with
  | nil => exact .ok _
  | cons item items ih =>
      refine .bind ?_ fun s₁ loaded => ?_
      · cases item with
        | comment => exact .ok _
        | header vars clauses => exact .ok _
        | clause lits =>
            have mentions : Gives e Sane (s.mention lits) := mention_sane excused r x
            refine .bind mentions.failsOnly fun s₁ mentioned => ?_
            have adds : FailsOnly e (s₁.addClauseReporting lits) :=
              failsOnly_addClauseReporting excused (r.mention mentioned).1 unsound
                (mentions.holds s₁ mentioned) (mention_known mentioned).2
            exact (adds.bind fun _ _ => .ok _).bind fun _ _ => .ok _
      · have r₁ := (r.loadItem (.inr ⟨unsound, free⟩) loaded).1
        exact ih r₁ (x.moves r.inv.core (loadItem_moves r loaded)) unsound free

/-- A text is loaded in a run at any level, unless there are too many variables or the like. -/
theorem Reaches.failsOnly_load {options : Options} {allowed : Solver → Call → Prop}
    {strict : Bool} {bs : List UInt8} (run : Reaches options allowed calls s)
    (excused : ∀ f : Fault, f.Excused → e f) : FailsOnly e (s.load strict bs) := by
  have r := run.standing
  have x := run.sane
  have free : ∀ k, (regimeOf calls False False fun _ => True).settled k := fun _ => trivial
  refine .bind (failsOnly_loadItems excused r x (fun on => on) free) fun s₁ loaded => ?_
  have r₁ := (r.loadItems (.inr ⟨fun on => on, free⟩) loaded).1
  have x₁ := x.moves r.inv.core (loadItems_moves r (.inr ⟨fun on => on, free⟩) loaded)
  exact (mention_sane excused r₁ x₁).failsOnly.bind fun _ _ => .ok _

/-- What becomes of a text, whatever it is.  It is accepted just if it is in the format; what
is done to the solver is what the clauses come to that were read, one after the other; and in
a run nothing is missing for that but room. -/
theorem load_exact (strict : Bool) (bs : List UInt8) :
    Dimacs.Tells strict bs (Dimacs.read strict bs) ∧
      (∀ (s : Solver) (fuel : Nat), (s.load strict bs).map (Prod.map hushed id) =
        (s.performAll fuel (Dimacs.read strict bs).calls).map fun r =>
          (r.1.hushed, (Dimacs.read strict bs).error)) ∧
      ∀ {options allowed calls s}, Reaches options allowed calls s →
        ∀ f, s.load strict bs = .error f → f.Excused :=
  ⟨Dimacs.read_tells strict bs, fun s fuel => load_eq s fuel strict bs,
    fun run => run.failsOnly_load fun _ yes => yes⟩

end Solver

end Cdcl
