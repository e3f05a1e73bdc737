import Cdcl.Truth

/-!
# What a variable stands for

A variable may stand for a fact about a domain outside the solver.  It is then
described by a `ChannelInfo`, and it may be observed: the observer is told about
every assignment of it.  A variable marked as not reliable is a stand-in that a
learnt clause may mention only as a decision.
-/

namespace Cdcl

/-- The text of an optional value. -/
def optionText {α : Type} (f : α → String) : Option α → String
  | none => "None"
  | some x => "Some(" ++ f x ++ ")"

/-- The fact about an outside domain that a variable stands for. -/
inductive FactKind where
  | plain
  | eq (k : Int)
  | le (k : Int)
deriving DecidableEq, Repr, Inhabited

/-- The printed form. -/
def FactKind.text : FactKind → String
  | plain => "Plain"
  | eq k => "Eq(" ++ toString k ++ ")"
  | le k => "Le(" ++ toString k ++ ")"

/-- The description of a variable. -/
structure ChannelInfo where
  /-- The outside variable that the fact is about. -/
  observer : Option Nat := none
  kind : FactKind := .plain
  /-- May the variable occur in a learnt clause as an implied literal? -/
  reliable : Bool := true
deriving DecidableEq, Repr, Inhabited

/-- The printed form. -/
def ChannelInfo.text (c : ChannelInfo) : String :=
  "ChannelInfo \x7b observer: " ++ optionText toString c.observer ++
    ", kind: " ++ c.kind.text ++
    ", reliable: " ++ toString c.reliable ++ " \x7d"

/-- What is needed to create a variable. -/
structure VarSpec where
  /-- The preferred value, or `unknown` to leave the choice to the solver. -/
  polarity : Truth := .unknown
  /-- May the solver branch on the variable? -/
  decision : Bool := true
  info : ChannelInfo := {}
  /-- Is the variable observed? -/
  observed : Bool := false
deriving DecidableEq, Repr

/-- The printed form. -/
def VarSpec.text (s : VarSpec) : String :=
  "VarSpec \x7b polarity: " ++ s.polarity.text ++
    ", decision: " ++ toString s.decision ++
    ", info: " ++ s.info.text ++
    ", channel: " ++ toString s.observed ++ " \x7d"

end Cdcl
