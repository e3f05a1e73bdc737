import Cdcl.Fault

/-!
# Truth values

The value of a variable or a literal under a partial assignment, and the answer of
a search: true, false, or not known.
-/

namespace Cdcl

/-- Truth under a partial assignment. -/
inductive Truth where
  | holds
  | fails
  | unknown
deriving DecidableEq, Repr

namespace Truth

instance : Inhabited Truth := ⟨unknown⟩

/-- The known truth value of a condition. -/
def ofBool (b : Bool) : Truth := if b then holds else fails

/-- Reads the encoding as a byte: 0 is true, 1 is false, and both 2 and 3 mean
"unknown". -/
def ofByte (n : Nat) : Except Fault Truth :=
  match n with
  | 0 => .ok holds
  | 1 => .ok fails
  | 2 => .ok unknown
  | 3 => .ok unknown
  | _ => .error .invalidTruth

/-- The opposite value; the opposite of "unknown" is "unknown". -/
def negate : Truth → Truth
  | holds => fails
  | fails => holds
  | unknown => unknown

/-- The opposite value if `b` is set. -/
def flipIf (t : Truth) (b : Bool) : Truth := if b then t.negate else t

/-- The printed form. -/
def text : Truth → String
  | holds => "TRUE"
  | fails => "FALSE"
  | unknown => "UNDEF"

/-- The value with the given printed form. -/
def ofText? (s : String) : Option Truth :=
  [holds, fails, unknown].find? (·.text == s)

@[simp] theorem negate_negate (t : Truth) : t.negate.negate = t := by
  cases t <;> rfl

@[simp] theorem flipIf_false (t : Truth) : t.flipIf false = t := rfl

@[simp] theorem flipIf_true (t : Truth) : t.flipIf true = t.negate := rfl

theorem flipIf_eq_unknown {t : Truth} {b : Bool} :
    t.flipIf b = unknown ↔ t = unknown := by
  cases t <;> cases b <;> simp [flipIf, negate]

end Truth

end Cdcl
