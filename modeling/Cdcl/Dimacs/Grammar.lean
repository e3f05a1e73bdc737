import Cdcl.Dimacs.Reader

/-!
# The clause format

Which texts say which items, stated without a reader.  Each relation is between a
text and what it says; blanks may stand before every number and around every item.

A number goes on as long as there are digits.  So whatever follows a number must not
begin with a digit, which `StopsDigits` says.
-/

namespace Cdcl.Dimacs

/-- The text consists of blanks. -/
def Blanks (bs : List UInt8) : Prop := ∀ b ∈ bs, isBlank b = true

/-- The text does not begin with a digit. -/
def StopsDigits (bs : List UInt8) : Prop := ∀ b ∈ bs.head?, isDigit b = false

/-- The number that digits stand for. -/
def digitsValue (ds : List UInt8) : Nat := ds.foldl (fun n d => 10 * n + (d.toNat - 48)) 0

/-- The text is digits, at least one, for a number that fits a word. -/
structure Magnitude (bs : List UInt8) (n : Nat) : Prop where
  nonempty : bs ≠ []
  digits : ∀ b ∈ bs, isDigit b = true
  value : digitsValue bs = n
  fits : n < numberSpan

/-- The text is a number: blanks, possibly a sign, and digits. -/
inductive Number : List UInt8 → Int → Prop
  | plain {blanks ds : List UInt8} {n : Nat} : Blanks blanks → Magnitude ds n →
      Number (blanks ++ ds) n
  | positive {blanks ds : List UInt8} {n : Nat} : Blanks blanks → Magnitude ds n →
      Number (blanks ++ 43 :: ds) n
  | negative {blanks ds : List UInt8} {n : Nat} : Blanks blanks → Magnitude ds n →
      Number (blanks ++ 45 :: ds) (-n)

/-- The text is the literals of a clause and a zero. -/
inductive Literals : List UInt8 → List Lit → Prop
  | last {bs : List UInt8} : Number bs 0 → Literals bs []
  | next {bs rest : List UInt8} {n : Int} {lits : List Lit} : Number bs n → n ≠ 0 →
      StopsDigits rest → Literals rest lits → Literals (bs ++ rest) (Lit.ofInt n :: lits)

/-- The text is an item, up to where it ends in front of `rest`. -/
inductive Denotes (rest : List UInt8) : List UInt8 → Item → Prop
  | comment {line : List UInt8} : 10 ∉ line → Denotes rest (99 :: line ++ [10]) .comment
  /-- The last line need not be ended. -/
  | lastComment {line : List UInt8} : 10 ∉ line → rest = [] →
      Denotes rest (99 :: line) .comment
  | header {first second : List UInt8} {vars clauses : Int} : Number first vars →
      StopsDigits second → Number second clauses → StopsDigits rest →
      Denotes rest (headerStart ++ first ++ second) (.header vars clauses)
  | clause {bs : List UInt8} {lits : List Lit} : Literals bs lits → StopsDigits rest →
      Denotes rest bs (.clause lits)

/-- The text is a sequence of items with blanks between and around them. -/
inductive Text : List UInt8 → List Item → Prop
  | blank {blanks : List UInt8} : Blanks blanks → Text blanks []
  | item {blanks bs rest : List UInt8} {i : Item} {items : List Item} : Blanks blanks →
      Denotes rest bs i → Text rest items → Text (blanks ++ bs ++ rest) (i :: items)

end Cdcl.Dimacs
