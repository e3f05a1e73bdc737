import Cdcl.Dimacs.Reader
import Cdcl.Solver.Intake

/-!
# Loading texts

The clauses of a text in the clause format are added to a solver one after the
other, with the variables that they mention.  Clauses read before an error stay.
-/

namespace Cdcl.Solver

open Dimacs

/-- Adds variables up to those of the literals. -/
def mention (s : Solver) : List Lit → Except Fault Solver
  | [] => .ok s
  | l :: ls => do
      let (s, _) ← s.varOfIndex l.var.index
      mention s ls

/-- Adds what an item of a text says. -/
def loadItem (s : Solver) : Item → Except Fault Solver
  | .comment => .ok s
  | .header vars clauses => .ok (s.log (.header vars clauses))
  | .clause lits => do
      let s ← s.mention lits
      let (s, _) ← s.addClause lits
      return s

theorem loadItem_clause_eq_ok {s s' : Solver} {lits : List Lit}
    (h : s.loadItem (.clause lits) = .ok s') : ∃ s₁ answer left, s.mention lits = .ok s₁ ∧
      s₁.addClauseReporting lits = .ok (s', answer, left) := by
  obtain ⟨s₁, mentioned, h⟩ := bind_eq_ok.mp h
  obtain ⟨⟨s₂, answer⟩, added, h⟩ := bind_eq_ok.mp h
  obtain ⟨⟨s₃, answer', left⟩, reported, added⟩ := bind_eq_ok.mp added
  cases added
  cases h
  exact ⟨s₁, answer, left, mentioned, reported⟩

/-- Adds what the items of a text say. -/
def loadItems (s : Solver) : List Item → Except Fault Solver
  | [] => .ok s
  | item :: items => do loadItems (← s.loadItem item) items

/-- Adds the clauses of a text.  Answers with the error that ended the reading, if
there was one. -/
def load (s : Solver) (strict : Bool) (bs : List UInt8) :
    Except Fault (Solver × Option ReadError) := do
  let r := read strict bs
  let s ← s.loadItems r.items
  let s ← s.mention r.unfinished
  return (s, r.error)

end Cdcl.Solver
