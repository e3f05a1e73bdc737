import Cdcl.Literal

/-!
# Reading clauses

A text in the clause format is a sequence of items with blanks between them: a
comment from a `c` to the end of its line, a header `p cnf` with two numbers, or a
clause, which is its literals as signed variable numbers and then a zero.  Numbers
may have a sign, and have to fit a signed word of 32 bits.

The reader works on bytes.  It answers with the items it has read, and with an error
and the literals of an unfinished clause if it could not read everything.

* `readNumber_shorter`, `readClause_shorter`, `readHeader_shorter` — every step consumes
  a byte.
-/

namespace Cdcl.Dimacs

/-- Why a text could not be read. -/
inductive ReadError where
  /-- A character that no number and no item begins with. -/
  | unexpectedChar (c : Char)
  /-- The text ends within a clause or a header. -/
  | unexpectedEnd
  /-- A number that does not fit a word. -/
  | tooLarge
  /-- Five bytes were expected for the beginning of a header. -/
  | shortHeader
  /-- The number of clauses is not the one in the header. -/
  | wrongCount
deriving DecidableEq, Repr

namespace ReadError

/-- The kind of error. -/
def kind : ReadError → String
  | shortHeader => "UnexpectedEof"
  | _ => "InvalidInput"

/-- The wording. -/
def message : ReadError → String
  | unexpectedChar c => "PARSE ERROR! Unexpected char: " ++ c.toString
  | unexpectedEnd => "PARSE ERROR! Unexpected EOF"
  | tooLarge => "PARSE ERROR! Integer too large"
  | shortHeader => "failed to fill whole buffer"
  | wrongCount => "PARSE ERROR! DIMACS header mismatch: wrong number of clauses"

end ReadError

/-- An item of a text. -/
inductive Item where
  | comment
  | header (vars clauses : Int)
  | clause (lits : List Lit)
deriving DecidableEq, Repr

/-- What came of reading a text. -/
structure Reading where
  items : List Item
  /-- The literals of a clause that could not be read to its end. -/
  unfinished : List Lit
  error : Option ReadError
deriving DecidableEq, Repr

/-- Is the byte a blank: one of 9 to 13, or 32? -/
def isBlank (b : UInt8) : Bool := (9 ≤ b && b ≤ 13) || b = 32

/-- Is the byte a decimal digit? -/
def isDigit (b : UInt8) : Bool := 48 ≤ b && b ≤ 57

/-- The text behind the blanks at its start. -/
def skipBlanks (bs : List UInt8) : List UInt8 := bs.dropWhile isBlank

/-- The text behind its first line. -/
def skipLine (bs : List UInt8) : List UInt8 := (bs.dropWhile (· ≠ 10)).drop 1

/-- Numbers lie below this bound. -/
def numberSpan : Nat := 0x80000000

/-- Reads digits on, from a number made of the digits before them. -/
def readDigits (n : Nat) : List UInt8 → Except ReadError (Nat × List UInt8)
  | [] => .ok (n, [])
  | b :: bs =>
      if isDigit b then
        let n := 10 * n + (b.toNat - 48)
        if n < numberSpan then readDigits n bs else .error .tooLarge
      else
        .ok (n, b :: bs)

/-- Reads a number without a sign, of at least one digit. -/
def readMagnitude (bs : List UInt8) : Except ReadError (Nat × List UInt8) :=
  match bs with
  | [] => .error .unexpectedEnd
  | b :: bs =>
      if isDigit b then
        readDigits 0 (b :: bs)
      else
        .error (.unexpectedChar (Char.ofNat b.toNat))

/-- Takes a sign off; the answer is true for a minus. -/
def takeSign : List UInt8 → Bool × List UInt8
  | 45 :: bs => (true, bs)
  | 43 :: bs => (false, bs)
  | bs => (false, bs)

/-- Reads a number, with blanks before it and possibly a sign. -/
def readNumber (bs : List UInt8) : Except ReadError (Int × List UInt8) :=
  let (negative, bs) := takeSign (skipBlanks bs)
  match readMagnitude bs with
  | .ok (n, bs) => .ok (if negative then -n else n, bs)
  | .error e => .error e

/-! ## Each step consumes a byte -/

theorem length_skipBlanks_le (bs : List UInt8) : (skipBlanks bs).length ≤ bs.length :=
  (List.dropWhile_sublist isBlank).length_le

theorem length_skipLine_le (bs : List UInt8) : (skipLine bs).length ≤ bs.length := by
  have := (List.dropWhile_sublist (l := bs) (· ≠ (10 : UInt8))).length_le
  simp only [skipLine, List.length_drop]
  omega

theorem readDigits_le {n m : Nat} {bs rest : List UInt8}
    (h : readDigits n bs = .ok (m, rest)) : rest.length ≤ bs.length := by
  induction bs generalizing n with
  | nil =>
      cases h
      exact Nat.le_refl _
  | cons b bs ih =>
      unfold readDigits at h
      split at h
      · simp only at h
        split at h
        · exact Nat.le_succ_of_le (ih h)
        · cases h
      · cases h
        exact Nat.le_refl _

/-- A number has at least one digit. -/
theorem readMagnitude_shorter {n : Nat} {bs rest : List UInt8}
    (h : readMagnitude bs = .ok (n, rest)) : rest.length < bs.length := by
  unfold readMagnitude at h
  split at h
  next => cases h
  next b bs =>
    split at h
    next digit =>
      unfold readDigits at h
      rw [if_pos digit] at h
      simp only at h
      split at h
      · exact Nat.lt_succ_of_le (readDigits_le h)
      · cases h
    next => cases h

theorem length_takeSign_le (bs : List UInt8) : (takeSign bs).2.length ≤ bs.length := by
  unfold takeSign
  split <;> simp

/-- Reading a number takes bytes, so a clause is read in finitely many steps. -/
theorem readNumber_shorter {n : Int} {bs rest : List UInt8}
    (h : readNumber bs = .ok (n, rest)) : rest.length < bs.length := by
  unfold readNumber at h
  simp only at h
  split at h
  next read =>
    cases h
    exact Nat.lt_of_lt_of_le (readMagnitude_shorter read)
      (Nat.le_trans (length_takeSign_le _) (length_skipBlanks_le bs))
  next => cases h

/-! ## Clauses and texts -/

/-- Reads a clause on, after the literals of `lits`, of which the last comes first.
If that fails, those literals are returned with the error. -/
def readClause (lits : List Lit) (bs : List UInt8) :
    Except (ReadError × List Lit) (List Lit × List UInt8) :=
  match _h : readNumber bs with
  | .error e => .error (e, lits.reverse)
  | .ok (n, rest) =>
      if n = 0 then .ok (lits.reverse, rest) else readClause (Lit.ofInt n :: lits) rest
termination_by bs.length
decreasing_by exact readNumber_shorter _h

/-- Reading a clause takes bytes, its final zero at least. -/
theorem readClause_shorter {lits out : List Lit} {bs rest : List UInt8}
    (h : readClause lits bs = .ok (out, rest)) : rest.length < bs.length := by
  fun_induction readClause lits bs with
  | case1 => cases h
  | case2 lits bs rest' read =>
      cases h
      exact readNumber_shorter read
  | case3 lits bs n rest' read _ ih => exact Nat.lt_trans (ih h) (readNumber_shorter read)

/-- The five bytes that begin a header. -/
def headerStart : List UInt8 := [112, 32, 99, 110, 102]

/-- Reads a header. -/
def readHeader (bs : List UInt8) : Except ReadError (Int × Int × List UInt8) :=
  if bs.length < headerStart.length then
    .error .shortHeader
  else if bs.take headerStart.length ≠ headerStart then
    .error (.unexpectedChar 'p')
  else
    match readNumber (bs.drop headerStart.length) with
    | .error e => .error e
    | .ok (vars, bs) =>
        match readNumber bs with
        | .error e => .error e
        | .ok (clauses, bs) => .ok (vars, clauses, bs)

/-- Reading a header takes bytes. -/
theorem readHeader_shorter {vars clauses : Int} {bs rest : List UInt8}
    (h : readHeader bs = .ok (vars, clauses, rest)) : rest.length < bs.length := by
  unfold readHeader at h
  split at h
  · cases h
  · split at h
    · cases h
    · split at h
      · cases h
      next first =>
        split at h
        · cases h
        next second =>
          cases h
          have shorter := readNumber_shorter first
          have shorter' := readNumber_shorter second
          simp only [List.length_drop] at shorter
          omega

/-- Reads items on, after those of `items`, of which the last comes first. -/
def readItems (items : List Item) (bs : List UInt8) : Reading :=
  match _start : skipBlanks bs with
  | [] => ⟨items.reverse, [], none⟩
  | b :: tail =>
      if b = 112 then
        match _h : readHeader (b :: tail) with
        | .ok (vars, clauses, rest) => readItems (.header vars clauses :: items) rest
        | .error e => ⟨items.reverse, [], some e⟩
      else if b = 99 then
        readItems (.comment :: items) (skipLine tail)
      else
        match _h : readClause [] (b :: tail) with
        | .ok (lits, rest) => readItems (.clause lits :: items) rest
        | .error (e, lits) => ⟨items.reverse, lits, some e⟩
termination_by bs.length
decreasing_by
  all_goals
    have blanks := length_skipBlanks_le bs
    rw [_start] at blanks
  · exact Nat.lt_of_lt_of_le (readHeader_shorter _h) blanks
  · have := length_skipLine_le tail
    simp only [List.length_cons] at blanks
    omega
  · exact Nat.lt_of_lt_of_le (readClause_shorter _h) blanks

/-- The number of clauses of a list of items. -/
def countClauses (items : List Item) : Nat :=
  items.countP fun
    | .clause _ => true
    | _ => false

/-- The number of clauses that the last header declares, or zero. -/
def declaredClauses (items : List Item) : Int :=
  items.foldl
    (fun declared item => match item with
      | .header _ clauses => clauses
      | _ => declared) 0

/-- Reads a text.  A strict reading also compares the number of clauses with the
header. -/
def read (strict : Bool) (bs : List UInt8) : Reading :=
  let r := readItems [] bs
  if r.error.isNone && strict && declaredClauses r.items ≠ countClauses r.items then
    { r with error := some .wrongCount }
  else
    r

end Cdcl.Dimacs
