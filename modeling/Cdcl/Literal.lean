/-!
# Variables and literals

A variable is named by its place in creation order, and a literal is a variable
with a sign.  `Lit.code` packs a literal into one number, with the negative
literal of a variable just before the positive one; literals are ordered, and
arrays are indexed, by that code.

* `Lit.ofCode_code` — a literal whose code fits a word is recovered from it;
* `Lit.neg_neg` — negation is an involution.

Printed, a literal is its variable counted from one, with a minus sign if it is
negative.
-/

namespace Cdcl

/-- Indices and codes are kept in words of this many values. -/
def wordSpan : Nat := 0x100000000

/-- A boolean variable, named by its place in creation order. -/
structure Var where
  index : Nat
deriving DecidableEq, Repr, Inhabited

namespace Var

/-- The variable that stands for "none": the greatest word. -/
def undef : Var := ⟨wordSpan - 1⟩

/-- The variable of an index, of which the low word is kept. -/
def ofIndex (i : Nat) : Var := ⟨i % wordSpan⟩

/-- Variables are printed counted from one. -/
def text (v : Var) : String :=
  if v = undef then "UNDEF" else toString (v.index + 1)

end Var

/-- A variable or its negation; `sign` is true for the variable itself. -/
structure Lit where
  var : Var
  sign : Bool
deriving DecidableEq, Repr, Inhabited

namespace Lit

/-- The literal packed into one number. -/
def code (l : Lit) : Nat := 2 * l.var.index + l.sign.toNat

/-- The literal of a code, of which the low word is kept. -/
def ofCode (n : Nat) : Lit := ⟨⟨n % wordSpan / 2⟩, n % 2 == 1⟩

/-- The literal that stands for "none". -/
def undef : Lit := ⟨⟨wordSpan / 2 - 1⟩, false⟩

instance : Neg Lit := ⟨fun l => { l with sign := !l.sign }⟩

/-- Literals are ordered by code, so by variable and then by sign. -/
instance : Ord Lit := ⟨fun a b => compare a.code b.code⟩

/-- The literal as a nonzero integer: its variable counted from one, negative for
a negative literal. -/
def toInt (l : Lit) : Int :=
  if l.sign then l.var.index + 1 else -(l.var.index + 1)

/-- The literal of a nonzero integer. -/
def ofInt (n : Int) : Lit := ⟨⟨n.natAbs - 1⟩, 0 < n⟩

/-- The printed form of a literal. -/
def text (l : Lit) : String :=
  if l = undef then "UNDEF" else (if l.sign then "" else "-") ++ l.var.text

/-- A list of literals between brackets. -/
def listText (ls : List Lit) : String :=
  "[" ++ ", ".intercalate (ls.map text) ++ "]"

@[simp] theorem neg_var (l : Lit) : (-l).var = l.var := rfl

@[simp] theorem neg_sign (l : Lit) : (-l).sign = !l.sign := rfl

@[simp] theorem neg_neg (l : Lit) : - -l = l := by
  cases l; simp [Neg.neg]

/-- A literal is read back from its code, unless the code does not fit a word. -/
theorem ofCode_code {l : Lit} (h : l.code < wordSpan) : ofCode l.code = l := by
  obtain ⟨⟨v⟩, s⟩ := l
  unfold code at h
  unfold ofCode code
  rw [Nat.mod_eq_of_lt h]
  cases s with
  | false => simp
  | true =>
      have half : (2 * v + 1) / 2 = v := by omega
      simp [half, Nat.add_mod]

end Lit

end Cdcl
