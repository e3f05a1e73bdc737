import Mathlib.Data.List.Basic
import Cdcl.Dimacs.Printer
import Cdcl.Proofs.Delivering

/-!
# Reading undoes printing

A printed formula is a text of the format, so what the reader is proved to do with texts
decides what it does with the formula.  What remains to be shown is that the digits of a
number stand for it, that the signed number of a literal is that of no other, and that blanks
and line ends keep the parts of a text apart.

* `bytes_eq`, `magnitude_toString` — the bytes of a text, and of the digits of a number;
* `literals_clause`, `text_printed` — what a printed clause and a printed formula say;
* `load_printed` — the formula is read back.
-/

namespace Cdcl

namespace Dimacs

variable {blanks text : List UInt8} {z : Int} {n : Nat} {l : Lit} {lits : List Lit}

/-! ## Bytes -/

/-- The bytes of a text. -/
def bytes (s : String) : List UInt8 := s.toUTF8.toList

/-- The loop puts the bytes from its position on behind those that it has. -/
theorem toList_loop (b : ByteArray) (i : Nat) (done : List UInt8) :
    ByteArray.toList.loop b i done = done.reverse ++ b.data.toList.drop i := by
  fun_induction ByteArray.toList.loop b i done with
  | case1 i done inside ih =>
      have low : i < b.data.toList.length := inside
      have read : b.get! i = b.data.toList[i] := getElem!_pos b.data i inside
      rw [ih, List.drop_eq_getElem_cons low, read, List.reverse_cons, List.append_assoc]
      rfl
  | case2 i done outside =>
      have high : b.data.toList.length ≤ i := Nat.le_of_not_lt outside
      rw [List.drop_eq_nil_of_le high, List.append_nil]

/-- The bytes of a text are those of its characters. -/
theorem bytes_eq (s : String) : bytes s = s.toList.flatMap String.utf8EncodeChar := by
  have encoded : s.toByteArray = s.toList.utf8Encode := by
    rw [← String.toByteArray_ofList, String.ofList_toList]
  rw [bytes, String.toUTF8, encoded, ByteArray.toList, toList_loop, List.utf8Encode,
    List.toList_data_toByteArray]
  rfl

theorem bytes_append (s t : String) : bytes (s ++ t) = bytes s ++ bytes t := by
  rw [bytes_eq, bytes_eq, bytes_eq, String.toList_append, List.flatMap_append]

theorem bytes_blank : bytes " " = [32] := (bytes_eq " ").trans rfl

/-- The bytes of joined texts are joined. -/
theorem bytes_join (ss : List String) : bytes (String.join ss) = ss.flatMap bytes := by
  induction ss with
  | nil =>
      rw [String.join_nil, bytes_eq]
      rfl
  | cons s ss ih => rw [String.join_cons, bytes_append, ih, List.flatMap_cons]

/-! ## Numbers -/

theorem toNat_of_digit {c : Char} (h : c.isDigit = true) : 48 ≤ c.toNat ∧ c.toNat ≤ 57 := by
  simp only [Char.isDigit, Bool.and_eq_true, decide_eq_true_eq, ge_iff_le,
    UInt32.le_iff_toNat_le] at h
  exact h

theorem utf8EncodeChar_of_digit {c : Char} (h : c.isDigit = true) :
    String.utf8EncodeChar c = [UInt8.ofNat c.toNat] :=
  if_pos (Nat.le_trans (toNat_of_digit h).2 (by decide))

theorem toNat_byte_of_digit {c : Char} (h : c.isDigit = true) :
    (UInt8.ofNat c.toNat).toNat = c.toNat :=
  UInt8.toNat_ofNat_of_lt (Nat.lt_of_le_of_lt (toNat_of_digit h).2 (by decide))

/-- A number is printed as the bytes of its decimal digits. -/
theorem bytes_toString (n : Nat) :
    bytes (toString n) = (Nat.toDigits 10 n).map fun c => UInt8.ofNat c.toNat := by
  have digits : ∀ c ∈ Nat.toDigits 10 n, c.isDigit = true := fun c hc =>
    Nat.isDigit_of_mem_toDigits (by decide) (by decide) hc
  rw [bytes_eq, Nat.toString_eq_repr, Nat.toList_repr, List.map_eq_flatMap]
  exact List.flatMap_congr fun c hc => utf8EncodeChar_of_digit (digits c hc)

/-- A number that fits is read as it was printed. -/
theorem magnitude_toString (fits : n < numberSpan) : Magnitude (bytes (toString n)) n := by
  have digits : ∀ c ∈ Nat.toDigits 10 n, c.isDigit = true := fun c hc =>
    Nat.isDigit_of_mem_toDigits (by decide) (by decide) hc
  rw [bytes_toString]
  refine ⟨?_, ?_, ?_, fits⟩
  · simp
  · intro b hb
    obtain ⟨c, hc, rfl⟩ := List.mem_map.mp hb
    rw [isDigit_iff, toNat_byte_of_digit (digits c hc)]
    exact toNat_of_digit (digits c hc)
  · rw [digitsValue, List.foldl_map]
    refine Eq.trans (List.foldl_ext _ _ _ fun m c hc => ?_) Nat.ofDigitChars_ten_toDigits
    rw [toNat_byte_of_digit (digits c hc)]
    rfl

/-- Blanks before a number belong to it. -/
theorem Number.behind (blank : Blanks blanks) (number : Number text z) :
    Number (blanks ++ text) z := by
  have both : ∀ {more}, Blanks more → Blanks (blanks ++ more) := fun more b hb =>
    (List.mem_append.mp hb).elim (blank b) (more b)
  cases number with
  | plain blank' digits => exact List.append_assoc .. ▸ .plain (both blank') digits
  | positive blank' digits => exact List.append_assoc .. ▸ .positive (both blank') digits
  | negative blank' digits => exact List.append_assoc .. ▸ .negative (both blank') digits

/-- A literal is read as the number that it was printed as. -/
theorem number_literal (low : l.var.index < Var.limit) :
    Number (bytes (literal l)) l.toInt := by
  have digits : Magnitude (bytes (toString (l.var.index + 1))) (l.var.index + 1) := by
    refine magnitude_toString ?_
    simp only [Var.limit, wordSpan, numberSpan] at low ⊢
    omega
  unfold literal Lit.toInt
  rw [bytes_append]
  cases l.sign with
  | true =>
      have empty : bytes "" = [] := (bytes_eq "").trans rfl
      simp only [if_true, empty]
      exact .plain .nil digits
  | false =>
      have minus : bytes "-" = [45] := (bytes_eq "-").trans rfl
      simp only [Bool.false_eq_true, if_false, minus]
      exact .negative .nil digits

/-- The number of a literal stands for that literal. -/
theorem ofInt_toInt (l : Lit) : Lit.ofInt l.toInt = l := by
  obtain ⟨⟨v⟩, sign⟩ := l
  cases sign with
  | true =>
      have index : ((v : Int) + 1).natAbs - 1 = v := by omega
      have positive : (0 : Int) < v + 1 := by omega
      simp only [Lit.toInt, Lit.ofInt, if_true, index, decide_eq_true positive]
  | false =>
      have index : (-((v : Int) + 1)).natAbs - 1 = v := by omega
      have negative : ¬(0 : Int) < -(v + 1) := by omega
      simp only [Lit.toInt, Lit.ofInt, Bool.false_eq_true, if_false, index,
        decide_eq_false negative]

/-- No literal is printed as the zero that ends a clause. -/
theorem toInt_ne_zero (l : Lit) : l.toInt ≠ 0 := by
  unfold Lit.toInt
  split
  · omega
  · omega

/-! ## Clauses -/

theorem Literals.behind (blank : Blanks blanks) (literals : Literals text lits) :
    Literals (blanks ++ text) lits := by
  cases literals with
  | last number => exact .last (number.behind blank)
  | next number nonzero stops literals =>
      rw [← List.append_assoc]
      exact .next (number.behind blank) nonzero stops literals

/-- A clause is its literals, each with a blank behind it, and a zero. -/
theorem bytes_clause (lits : List Lit) :
    bytes (clause lits) = lits.flatMap (fun l => bytes (literal l) ++ [32]) ++ [48] := by
  have zero : bytes "0" = [48] := (bytes_eq "0").trans rfl
  simp only [clause, bytes_append, bytes_join, List.flatMap_map, bytes_blank, zero]

/-- A clause is read for its literals. -/
theorem literals_clause (low : ∀ l ∈ lits, l.var.index < Var.limit) :
    Literals (bytes (clause lits)) lits := by
  have blank : Blanks [32] := List.forall_mem_singleton.mpr rfl
  rw [bytes_clause]
  induction lits with
  | nil =>
      have zero : Magnitude [48] 0 :=
        ⟨nofun, List.forall_mem_singleton.mpr rfl, rfl, by decide⟩
      exact .last (.plain .nil zero)
  | cons l lits ih =>
      rw [List.forall_mem_cons] at low
      have first := number_literal low.1
      have more := (ih low.2).behind blank
      have whole := Literals.next first (toInt_ne_zero l) (.of_head (by decide)) more
      rw [ofInt_toInt] at whole
      simpa using whole

/-! ## Texts -/

/-- The bytes of a formula in the format: possibly a comment, a header, and each clause on a
line of its own. -/
def printed (comment : Option (List UInt8)) (vars : Nat) (clauses : List (List Lit)) :
    List UInt8 :=
  (comment.elim [] fun line => 99 :: line ++ [10]) ++
    bytes ("p cnf " ++ toString vars ++ " " ++ toString clauses.length ++ "\n" ++
      String.join (clauses.map fun c => clause c ++ "\n"))

/-- What a printed formula says. -/
def spoken (comment : Option (List UInt8)) (vars : Nat) (clauses : List (List Lit)) :
    List Item :=
  (comment.elim [] fun _ => [.comment]) ++ .header vars clauses.length :: clauses.map .clause

variable {comment : Option (List UInt8)} {vars : Nat} {clauses : List (List Lit)}

/-- Clauses, each on a line of its own, are a text of the format. -/
theorem text_clauses (low : ∀ c ∈ clauses, ∀ l ∈ c, l.var.index < Var.limit) :
    Text (10 :: clauses.flatMap fun c => bytes (clause c) ++ [10]) (clauses.map .clause) := by
  have newline : Blanks [10] := List.forall_mem_singleton.mpr rfl
  induction clauses with
  | nil => exact .blank newline
  | cons c clauses ih =>
      rw [List.forall_mem_cons] at low
      have item := Text.item newline (.clause (literals_clause low.1) (.of_head (by decide)))
        (ih low.2)
      simpa using item

theorem bytes_printed : printed comment vars clauses =
    (comment.elim [] fun line => 99 :: line ++ [10]) ++
      (headerStart ++ ([32] ++ bytes (toString vars)) ++
        ([32] ++ bytes (toString clauses.length)) ++
        10 :: clauses.flatMap fun c => bytes (clause c) ++ [10]) := by
  have start : bytes "p cnf " = headerStart ++ [32] := (bytes_eq "p cnf ").trans rfl
  have newline : bytes "\n" = [10] := (bytes_eq "\n").trans rfl
  simp [printed, bytes_append, bytes_join, List.flatMap_map, start, bytes_blank, newline]

/-- A printed formula is a text of the format. -/
theorem text_printed (unbroken : ∀ line ∈ comment, 10 ∉ line) (fits : vars < numberSpan)
    (few : clauses.length < numberSpan) (low : ∀ c ∈ clauses, ∀ l ∈ c, l.var.index < Var.limit) :
    Text (printed comment vars clauses) (spoken comment vars clauses) := by
  have blank : Blanks [32] := List.forall_mem_singleton.mpr rfl
  have first := (Number.plain .nil (magnitude_toString fits)).behind blank
  have second := (Number.plain .nil (magnitude_toString few)).behind blank
  have body := Text.item .nil
    (.header first (.of_head (by decide)) second (.of_head (by decide))) (text_clauses low)
  rw [bytes_printed, spoken]
  cases comment with
  | none => simpa using body
  | some line => simpa using Text.item .nil (.comment (unbroken line rfl)) body

/-- As many clauses are read as were printed. -/
theorem countClauses_spoken : countClauses (spoken comment vars clauses) = clauses.length := by
  have each : countClauses (clauses.map .clause) = clauses.length := by
    rw [countClauses, List.countP_map]
    exact List.countP_eq_length.mpr fun _ _ => rfl
  cases comment with
  | none => exact each
  | some line => exact each

/-- The clauses behind the header declare nothing. -/
theorem declaredClauses_spoken :
    declaredClauses (spoken comment vars clauses) = clauses.length := by
  have each : declaredClauses (.header vars clauses.length :: clauses.map .clause) =
      clauses.length := by
    rw [declaredClauses, List.foldl_cons, List.foldl_map]
    exact List.foldl_fixed ..
  cases comment with
  | none => exact each
  | some line => exact each

/-- The calls that add clauses, with their variables. -/
def adding (clauses : List (List Lit)) : List Call :=
  clauses.flatMap fun c => mentions c ++ [.addClause c]

/-- What a printed formula says is to add its clauses. -/
theorem calls_spoken : (spoken comment vars clauses).flatMap Item.calls = adding clauses := by
  have each : (clauses.map Item.clause).flatMap Item.calls = adding clauses :=
    List.flatMap_map ..
  cases comment with
  | none => exact each
  | some line => exact each

/-- The clauses that loading submits are those that were printed. -/
theorem clauses_spoken : (spoken comment vars clauses).filterMap Solver.clauseOf = clauses := by
  have each : (clauses.map Item.clause).filterMap Solver.clauseOf = clauses := by
    rw [List.filterMap_map]
    exact List.filterMap_some
  cases comment with
  | none => exact each
  | some line => exact each

end Dimacs

namespace Solver

open Dimacs

/-- Reading undoes printing.  A printed formula is accepted, also strictly; its clauses are
the clauses that were printed, in their order and with their literals in order; and loading it
does what adding them one after the other does. -/
theorem load_printed {comment : Option (List UInt8)} {vars : Nat} {clauses : List (List Lit)}
    (unbroken : ∀ line ∈ comment, 10 ∉ line) (fits : vars < numberSpan)
    (few : clauses.length < numberSpan) (low : ∀ c ∈ clauses, ∀ l ∈ c, l.var.index < Var.limit) :
    (Dimacs.read true (printed comment vars clauses)).error = none ∧
      (Call.load true (printed comment vars clauses)).clauses = clauses ∧
      ∀ (s : Solver) (fuel : Nat),
        (s.load true (printed comment vars clauses)).map (Prod.map hushed id) =
          (s.performAll fuel (adding clauses)).map fun r => (r.1.hushed, none) := by
  have complete := readItems_text (text_printed unbroken fits few low)
  have error : (Dimacs.read true (printed comment vars clauses)).error = none := by
    rw [error_read_of_complete true complete, if_neg]
    rw [declaredClauses_spoken, countClauses_spoken]
    exact fun both => both.2 rfl
  obtain ⟨items, unfinished⟩ := items_read true (printed comment vars clauses)
  rw [complete] at items unfinished
  refine ⟨error, ?_, fun s fuel => ?_⟩
  · rw [Call.clauses, items]
    exact clauses_spoken
  · have calls : (Dimacs.read true (printed comment vars clauses)).calls = adding clauses := by
      rw [Reading.calls, items, unfinished, calls_spoken]
      exact List.append_nil _
    rw [load_eq s fuel, calls, error]

/-- An empty clause, a clause that repeats a literal next to its negation, and the greatest
variable that can have literals. -/
def farApart : List (List Lit) :=
  [[], [⟨⟨0⟩, true⟩, ⟨⟨1⟩, false⟩, ⟨⟨0⟩, true⟩, ⟨⟨0⟩, false⟩], [⟨⟨2147483646⟩, false⟩]]

/-- Odd clauses are read back under a comment, by a strict reader. -/
theorem farApart_read_back :
    (Dimacs.read true (printed (some [32, 120]) 2147483647 farApart)).error = none ∧
      (Call.load true (printed (some [32, 120]) 2147483647 farApart)).clauses = farApart ∧
      ∀ (s : Solver) (fuel : Nat),
        (s.load true (printed (some [32, 120]) 2147483647 farApart)).map (Prod.map hushed id) =
          (s.performAll fuel (adding farApart)).map fun r => (r.1.hushed, none) :=
  load_printed (by decide) (by decide) (by decide) (by decide)

end Solver

end Cdcl
