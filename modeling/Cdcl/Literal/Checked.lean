import Cdcl.Fault

/-!
# Checked construction

Variables and literals made from numbers that may be too large for a word.
`Lit.make_ok` says that a variable below half the word span always has both
literals.
-/

namespace Cdcl

/-- Variable indices stay below this bound, so that both literals of a variable
and the literal `Lit.undef` have codes of their own. -/
def Var.limit : Nat := wordSpan / 2 - 1

/-- The variable of an index below `Var.limit`. -/
def Var.make (i : Nat) : Except Fault Var :=
  if i < Var.limit then .ok ⟨i⟩ else .error .variableTooLarge

/-- The literal of a variable and a sign; its code has to fit a word. -/
def Lit.make (v : Var) (sign : Bool) : Except Fault Lit :=
  if 2 * v.index < wordSpan then .ok ⟨v, sign⟩ else .error .overflow

/-- The literal of a possibly negative variable index.  Negative indices are
folded onto `-v - 1` with the sign flipped. -/
def Lit.ofSigned (v : Int) (sign : Bool) : Except Fault Lit := do
  if 0 ≤ v then
    Lit.make (← Var.make v.toNat) sign
  else
    Lit.make (← Var.make (-v - 1).toNat) (!sign)

theorem Lit.make_ok {v : Var} (h : v.index < wordSpan / 2) (sign : Bool) :
    Lit.make v sign = .ok ⟨v, sign⟩ := by
  have : 2 * v.index < wordSpan := by
    unfold wordSpan at *
    omega
  simp [Lit.make, this]

end Cdcl
