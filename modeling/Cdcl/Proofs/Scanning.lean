import Mathlib.Data.List.DropRight
import Mathlib.Data.List.TakeWhile
import Cdcl.Dimacs.Grammar
import Cdcl.Literal.Checked

/-!
# Reading numbers, clauses and headers

A step of the reader takes a part off the front of a text.  It does so just if the text begins
with such a part, and then takes as much as belongs to it, which is what the grammar says of
the part and of what may follow it.

* `readNumber_eq_ok`, `readClause_eq_ok`, `readHeader_eq_ok` — what a step takes off;
* `readNumber_invalid`, `readClause_invalid`, `readHeader_kind` — the kinds of error of one
  that fails;
* `readClause_begun` — the literals in front of the place where a clause cannot be read on;
* `Number.fits`, `index_ofInt`, `readClause_fits` — numbers fit signed words, and the literals
  are of variables that can have them.
-/

namespace Cdcl.Dimacs

variable {bs rest tail text blanks ds : List UInt8} {b : UInt8} {n m : Nat} {z : Int}
  {lits out : List Lit}

/-! ## Blanks -/

theorem Blanks.nil : Blanks [] := List.forall_mem_nil _

theorem skipBlanks_append (h : Blanks blanks) : skipBlanks (blanks ++ rest) = skipBlanks rest :=
  List.dropWhile_append_of_pos h

theorem skipBlanks_cons (h : isBlank b = false) : skipBlanks (b :: tail) = b :: tail :=
  List.dropWhile_cons_of_neg (Bool.eq_false_iff.mp h)

/-- What is skipped is blank, and nothing else is lost. -/
theorem exists_blanks (bs : List UInt8) :
    ∃ blanks, Blanks blanks ∧ bs = blanks ++ skipBlanks bs :=
  ⟨bs.takeWhile isBlank, fun _ hb => List.mem_takeWhile_imp hb,
    List.takeWhile_append_dropWhile.symm⟩

theorem skipBlanks_skipBlanks (bs : List UInt8) : skipBlanks (skipBlanks bs) = skipBlanks bs :=
  List.dropWhile_idempotent isBlank bs

/-- All of a text is skipped if it is blank. -/
theorem skipBlanks_eq_nil : skipBlanks bs = [] ↔ Blanks bs := List.dropWhile_eq_nil_iff

theorem not_blank_of_skipBlanks (h : skipBlanks bs = b :: tail) : isBlank b = false := by
  have head := List.head?_dropWhile_not isBlank bs
  rw [show bs.dropWhile isBlank = b :: tail from h] at head
  exact head

/-! ## Numbers -/

/-- The number that digits stand for behind those of another number. -/
def digitsFrom (n : Nat) (ds : List UInt8) : Nat :=
  ds.foldl (fun n d => 10 * n + (d.toNat - 48)) n

/-- Digits make a number no smaller. -/
theorem le_digitsFrom (n : Nat) (ds : List UInt8) : n ≤ digitsFrom n ds := by
  induction ds generalizing n with
  | nil => exact Nat.le_refl n
  | cons d ds ih =>
      have step := ih (10 * n + (d.toNat - 48))
      change n ≤ digitsFrom (10 * n + (d.toNat - 48)) ds
      omega

theorem StopsDigits.of_head (h : isDigit b = false) : StopsDigits (b :: bs) := by
  intro c head
  cases head
  exact h

theorem StopsDigits.nil : StopsDigits [] := nofun

/-- Each digit makes the number greater, so that if all of it fits, so does every part. -/
theorem readDigits_append (digits : ∀ b ∈ ds, isDigit b = true) (stops : StopsDigits rest)
    (fits : digitsFrom n ds < numberSpan) :
    readDigits n (ds ++ rest) = .ok (digitsFrom n ds, rest) := by
  induction ds generalizing n with
  | nil =>
      cases rest with
      | nil => rfl
      | cons b rest =>
          have stop : isDigit b = false := stops b rfl
          simp only [List.nil_append, readDigits, stop, Bool.false_eq_true, if_false]
          rfl
  | cons d ds ih =>
      have first : isDigit d = true := digits d List.mem_cons_self
      have low : 10 * n + (d.toNat - 48) < numberSpan :=
        Nat.lt_of_le_of_lt (le_digitsFrom _ ds) fits
      rw [List.cons_append, readDigits, if_pos first]
      simp only
      rw [if_pos low]
      exact ih (fun b hb => digits b (List.mem_cons_of_mem d hb)) fits

/-- The bytes that have been read are digits up to the first byte that is none, and their number
fits. -/
theorem exists_digits (low : n < numberSpan) (h : readDigits n bs = .ok (m, rest)) :
    ∃ ds, bs = ds ++ rest ∧ (∀ b ∈ ds, isDigit b = true) ∧ StopsDigits rest ∧
      digitsFrom n ds = m ∧ m < numberSpan := by
  induction bs generalizing n with
  | nil =>
      cases h
      exact ⟨[], rfl, nofun, .nil, rfl, low⟩
  | cons b bs ih =>
      unfold readDigits at h
      split at h
      next digit =>
        simp only at h
        split at h
        next low' =>
          obtain ⟨ds, rfl, digits, rest⟩ := ih low' h
          exact ⟨b :: ds, rfl, List.forall_mem_cons.mpr ⟨digit, digits⟩, rest⟩
        next => cases h
      next other =>
        cases h
        exact ⟨[], rfl, nofun, .of_head (Bool.eq_false_iff.mpr other), rfl, low⟩

/-- A number without sign is read from as many digits as there are, if it fits. -/
theorem readMagnitude_eq_ok : readMagnitude bs = .ok (n, rest) ↔
    ∃ ds, bs = ds ++ rest ∧ Magnitude ds n ∧ StopsDigits rest := by
  constructor
  · intro h
    unfold readMagnitude at h
    split at h
    next => cases h
    next b bs =>
      split at h
      next digit =>
        obtain ⟨ds, split_, digits, stops, value, fits⟩ := exists_digits (by decide) h
        refine ⟨ds, split_, ⟨?_, digits, value, fits⟩, stops⟩
        intro none_
        subst none_
        rw [List.nil_append] at split_
        exact absurd (stops b (split_ ▸ rfl)) (by simp [digit])
      next => cases h
  · rintro ⟨ds, rfl, ⟨nonempty, digits, value, fits⟩, stops⟩
    subst value
    obtain ⟨d, ds, rfl⟩ := List.exists_cons_of_ne_nil nonempty
    have first : isDigit d = true := digits d List.mem_cons_self
    rw [List.cons_append, readMagnitude, if_pos first]
    exact readDigits_append digits stops fits

theorem isDigit_iff : isDigit b = true ↔ 48 ≤ b.toNat ∧ b.toNat ≤ 57 := by
  simp only [isDigit, Bool.and_eq_true, decide_eq_true_eq, UInt8.le_iff_toNat_le]
  rfl

theorem isBlank_iff :
    isBlank b = true ↔ (9 ≤ b.toNat ∧ b.toNat ≤ 13) ∨ b.toNat = 32 := by
  simp only [isBlank, Bool.or_eq_true, Bool.and_eq_true, decide_eq_true_eq,
    UInt8.le_iff_toNat_le, ← UInt8.toNat_inj]
  rfl

theorem not_blank_of_digit (h : isDigit b = true) : isBlank b = false := by
  rw [isDigit_iff] at h
  refine Bool.eq_false_iff.mpr fun blank => ?_
  rw [isBlank_iff] at blank
  omega

theorem takeSign_of_digit (h : isDigit b = true) : takeSign (b :: bs) = (false, b :: bs) := by
  unfold takeSign
  split
  next same =>
    cases same
    exact absurd h (by decide)
  next same =>
    cases same
    exact absurd h (by decide)
  next => rfl

/-- Reading succeeds exactly on a number of the grammar that no digit follows. -/
theorem readNumber_eq_ok : readNumber bs = .ok (z, rest) ↔
    ∃ text, bs = text ++ rest ∧ Number text z ∧ StopsDigits rest := by
  constructor
  · intro h
    obtain ⟨blanks, blank, split_⟩ := exists_blanks bs
    unfold readNumber at h
    generalize skipBlanks bs = signed at h split_
    subst split_
    simp only at h
    split at h
    next n rest' read =>
      cases h
      obtain ⟨ds, split_, digits, stops⟩ := readMagnitude_eq_ok.mp read
      unfold takeSign at split_ ⊢
      split at split_
      · simp only at split_
        subst split_
        refine ⟨blanks ++ 45 :: ds, by simp, .negative blank digits, stops⟩
      · simp only at split_
        subst split_
        refine ⟨blanks ++ 43 :: ds, by simp, .positive blank digits, stops⟩
      · simp only at split_
        subst split_
        refine ⟨blanks ++ ds, by simp, .plain blank digits, stops⟩
    next => cases h
  · rintro ⟨text, rfl, number, stops⟩
    have reads : ∀ {ds n}, Magnitude ds n → readMagnitude (ds ++ rest) = .ok (n, rest) :=
      fun digits => readMagnitude_eq_ok.mpr ⟨_, rfl, digits, stops⟩
    cases number with
    | @plain blanks ds n blank digits =>
        obtain ⟨d, ds', rfl⟩ := List.exists_cons_of_ne_nil digits.nonempty
        have first : isDigit d = true := digits.digits d List.mem_cons_self
        have read := reads digits
        rw [readNumber, List.append_assoc, skipBlanks_append blank, List.cons_append,
          skipBlanks_cons (not_blank_of_digit first), takeSign_of_digit first]
        rw [List.cons_append] at read
        simp only [read]
        rfl
    | @positive blanks ds n blank digits =>
        rw [readNumber, List.append_assoc, skipBlanks_append blank, List.cons_append,
          skipBlanks_cons (by decide)]
        simp only [takeSign, reads digits]
        rfl
    | @negative blanks ds n blank digits =>
        rw [readNumber, List.append_assoc, skipBlanks_append blank, List.cons_append,
          skipBlanks_cons (by decide)]
        simp only [takeSign, reads digits]
        rfl

/-- Behind its blanks a number begins with a sign or a digit, so it is no other item. -/
theorem Number.opens (number : Number text z) : ∃ blanks b tail, text = blanks ++ b :: tail ∧
    Blanks blanks ∧ isBlank b = false ∧ b ≠ 112 ∧ b ≠ 99 := by
  cases number with
  | @plain blanks ds n blank digits =>
      obtain ⟨d, ds', rfl⟩ := List.exists_cons_of_ne_nil digits.nonempty
      have first : isDigit d = true := digits.digits d List.mem_cons_self
      refine ⟨blanks, d, ds', rfl, blank, not_blank_of_digit first, ?_, ?_⟩
      · rintro rfl
        exact absurd first (by decide)
      · rintro rfl
        exact absurd first (by decide)
  | positive blank => exact ⟨_, _, _, rfl, blank, by decide, by decide, by decide⟩
  | negative blank => exact ⟨_, _, _, rfl, blank, by decide, by decide, by decide⟩

theorem Number.nonempty (number : Number text z) : text ≠ [] := by
  obtain ⟨blanks, b, tail, rfl, -⟩ := number.opens
  simp

/-- A number of the grammar fits the range of the reader. -/
theorem Number.fits (number : Number text z) : z.natAbs < numberSpan := by
  cases number with
  | plain _ digits => exact digits.fits
  | positive _ digits => exact digits.fits
  | negative _ digits => simpa using digits.fits

/-- The variable of a number that fits can be created. -/
theorem index_ofInt (fits : z.natAbs < numberSpan) :
    (Lit.ofInt z).var.index < Var.limit := by
  change z.natAbs - 1 < wordSpan / 2 - 1
  simp only [numberSpan, wordSpan] at fits ⊢
  omega

theorem readNumber_skipBlanks (bs : List UInt8) : readNumber (skipBlanks bs) = readNumber bs := by
  unfold readNumber
  rw [skipBlanks_skipBlanks]

/-- Digits fail to be read only if their number does not fit. -/
theorem readDigits_invalid {e : ReadError} (h : readDigits n bs = .error e) :
    e.kind = "InvalidInput" := by
  induction bs generalizing n with
  | nil => cases h
  | cons b bs ih =>
      unfold readDigits at h
      split at h
      · simp only at h
        split at h
        · exact ih h
        · cases h
          rfl
      · cases h

/-- A number without sign fails with the same kind of error, also if it has no digits. -/
theorem readMagnitude_invalid {e : ReadError} (h : readMagnitude bs = .error e) :
    e.kind = "InvalidInput" := by
  unfold readMagnitude at h
  split at h
  · cases h
    rfl
  · split at h
    · exact readDigits_invalid h
    · cases h
      rfl

/-- Whatever is wrong with a number, it is invalid input. -/
theorem readNumber_invalid {e : ReadError} (h : readNumber bs = .error e) :
    e.kind = "InvalidInput" := by
  unfold readNumber at h
  simp only at h
  split at h
  next => cases h
  next failed =>
    cases h
    exact readMagnitude_invalid failed

/-! ## Literals -/

theorem StopsDigits.append (stops : StopsDigits bs) (nonempty : bs ≠ []) :
    StopsDigits (bs ++ rest) := by
  obtain ⟨b, tail, rfl⟩ := List.exists_cons_of_ne_nil nonempty
  exact stops

theorem StopsDigits.of_append (stops : StopsDigits (bs ++ rest)) (nonempty : bs ≠ []) :
    StopsDigits bs := by
  obtain ⟨b, tail, rfl⟩ := List.exists_cons_of_ne_nil nonempty
  exact stops

/-- A clause begins with a number, so that it is no other item. -/
theorem Literals.opens (h : Literals text lits) : ∃ blanks b tail, text = blanks ++ b :: tail ∧
    Blanks blanks ∧ isBlank b = false ∧ b ≠ 112 ∧ b ≠ 99 := by
  cases h with
  | last number => exact number.opens
  | next number =>
      obtain ⟨blanks, b, tail, rfl, opens⟩ := number.opens
      exact ⟨blanks, b, _, by rw [List.append_assoc, List.cons_append], opens⟩

theorem Literals.nonempty (h : Literals text lits) : text ≠ [] := by
  obtain ⟨blanks, b, tail, rfl, -⟩ := h.opens
  simp

/-- What happens behind a number: a zero ends the clause, another number is a literal. -/
theorem readClause_of_number (read : readNumber bs = .ok (z, rest)) (lits : List Lit) :
    readClause lits bs =
      if z = 0 then .ok (lits.reverse, rest) else readClause (Lit.ofInt z :: lits) rest := by
  rw [readClause]
  split
  next failed => cases read.symm.trans failed
  next found =>
    cases read.symm.trans found
    rfl

/-- Reading succeeds exactly on literals of the grammar and their zero. -/
theorem readClause_eq_ok : readClause lits bs = .ok (out, rest) ↔
    ∃ text more, bs = text ++ rest ∧ Literals text more ∧ StopsDigits rest ∧
      out = lits.reverse ++ more := by
  constructor
  · intro h
    -- by the numbers of the clause, as the reader takes them
    fun_induction readClause lits bs with
    | case1 => cases h
    | case2 lits bs rest' read =>
        cases h
        obtain ⟨text, rfl, number, stops⟩ := readNumber_eq_ok.mp read
        exact ⟨text, [], rfl, .last number, stops, (List.append_nil _).symm⟩
    | case3 lits bs n rest' read nonzero ih =>
        obtain ⟨text, rfl, number, stops⟩ := readNumber_eq_ok.mp read
        obtain ⟨text', more, rfl, literals, stops', rfl⟩ := ih h
        refine ⟨text ++ text', Lit.ofInt n :: more, by simp, ?_, stops', by simp⟩
        exact .next number nonzero (stops.of_append literals.nonempty) literals
  · rintro ⟨text, more, rfl, literals, stops, rfl⟩
    induction literals generalizing lits with
    | @last bs number =>
        have read : readNumber (bs ++ rest) = .ok (0, rest) :=
          readNumber_eq_ok.mpr ⟨bs, rfl, number, stops⟩
        rw [readClause_of_number read, if_pos rfl, List.append_nil]
    | @next bs text n more number nonzero stops' literals ih =>
        have read : readNumber (bs ++ (text ++ rest)) = .ok (n, text ++ rest) :=
          readNumber_eq_ok.mpr ⟨bs, rfl, number, stops'.append literals.nonempty⟩
        rw [List.append_assoc, readClause_of_number read, if_neg nonzero, ih]
        simp

theorem readClause_skipBlanks (lits : List Lit) (bs : List UInt8) :
    readClause lits (skipBlanks bs) = readClause lits bs := by
  rw [readClause, readClause, readNumber_skipBlanks]

/-- A clause fails for a number that cannot be read. -/
theorem readClause_invalid {e : ReadError} (h : readClause lits bs = .error (e, out)) :
    e.kind = "InvalidInput" := by
  fun_induction readClause lits bs with
  | case1 lits bs e' failed =>
      cases h
      exact readNumber_invalid failed
  | case2 => cases h
  | case3 _ _ _ _ _ _ ih => exact ih h

/-- The text begins with the literals, and no other number follows them. -/
inductive Begun : List UInt8 → List Lit → Prop
  | stop {bs : List UInt8} :
      (∀ text rest n, bs = text ++ rest → StopsDigits rest → ¬Number text n) → Begun bs []
  | next {text rest : List UInt8} {n : Int} {lits : List Lit} : Number text n → n ≠ 0 →
      StopsDigits rest → Begun rest lits → Begun (text ++ rest) (Lit.ofInt n :: lits)

/-- When a clause fails, its literals up to there have been read. -/
theorem readClause_begun {e : ReadError} (h : readClause lits bs = .error (e, out)) :
    ∃ more, out = lits.reverse ++ more ∧ Begun bs more := by
  fun_induction readClause lits bs with
  | case1 lits bs e' failed =>
      cases h
      refine ⟨[], (List.append_nil _).symm, .stop fun text rest n split_ stops number => ?_⟩
      cases failed.symm.trans (readNumber_eq_ok.mpr ⟨text, split_, number, stops⟩)
  | case2 => cases h
  | case3 lits bs n rest read nonzero ih =>
      obtain ⟨text, rfl, number, stops⟩ := readNumber_eq_ok.mp read
      obtain ⟨more, rfl, begun⟩ := ih h
      exact ⟨Lit.ofInt n :: more, by simp, .next number nonzero stops begun⟩

/-- The variables of these literals can be created. -/
theorem readClause_fits {e : ReadError} (h : readClause lits bs = .error (e, out))
    (low : ∀ l ∈ lits, l.var.index < Var.limit) : ∀ l ∈ out, l.var.index < Var.limit := by
  fun_induction readClause lits bs with
  | case1 =>
      cases h
      exact fun l hl => low l (List.mem_reverse.mp hl)
  | case2 => cases h
  | case3 lits bs n rest read _ ih =>
      obtain ⟨text, -, number, -⟩ := readNumber_eq_ok.mp read
      exact ih h (List.forall_mem_cons.mpr ⟨index_ofInt number.fits, low⟩)

/-! ## Headers -/

/-- A header is its five bytes and two numbers. -/
theorem readHeader_eq_ok {vars clauses : Int} : readHeader bs = .ok (vars, clauses, rest) ↔
    ∃ first second, bs = headerStart ++ first ++ second ++ rest ∧ Number first vars ∧
      StopsDigits second ∧ Number second clauses ∧ StopsDigits rest := by
  constructor
  · intro h
    unfold readHeader at h
    split at h
    · cases h
    split at h
    · cases h
    next start =>
      simp only [ne_eq, Decidable.not_not] at start
      split at h
      · cases h
      next vars' bs₁ read =>
        split at h
        · cases h
        next clauses' bs₂ read' =>
          cases h
          obtain ⟨first, split_, number, stops⟩ := readNumber_eq_ok.mp read
          obtain ⟨second, rfl, number', stops'⟩ := readNumber_eq_ok.mp read'
          refine ⟨first, second, ?_, number, stops.of_append number'.nonempty, number', stops'⟩
          rw [← List.take_append_drop headerStart.length bs, split_, start]
          simp
  · rintro ⟨first, second, rfl, number, stops, number', stops'⟩
    have read : readNumber (first ++ (second ++ rest)) = .ok (vars, second ++ rest) :=
      readNumber_eq_ok.mpr ⟨first, rfl, number, stops.append number'.nonempty⟩
    have read' : readNumber (second ++ rest) = .ok (clauses, rest) :=
      readNumber_eq_ok.mpr ⟨second, rfl, number', stops'⟩
    rw [List.append_assoc, List.append_assoc, readHeader, if_neg, if_neg]
    · simp only [List.drop_left, read, read']
    · simp
    · simp

/-- A header fails for want of bytes just if five of them are missing. -/
theorem readHeader_kind {e : ReadError} (h : readHeader bs = .error e) :
    e.kind = if bs.length < headerStart.length then "UnexpectedEof" else "InvalidInput" := by
  unfold readHeader at h
  split at h
  next short =>
    cases h
    rw [if_pos short]
    rfl
  next long =>
    rw [if_neg long]
    split at h
    · cases h
      rfl
    split at h
    next failed =>
      cases h
      exact readNumber_invalid failed
    next =>
      split at h
      next failed =>
        cases h
        exact readNumber_invalid failed
      next => cases h

end Cdcl.Dimacs
