import Cdcl.Proofs.Scanning

/-!
# Reading texts

The reader goes through the items of a text one after the other.  It reads an item wherever
one begins, and stops only where none does, so what it answers is told by the grammar alone.

* `Leads` — the items that a text begins with, and the rest of the text;
* `readItems_denotes`, `readItems_leads` — one item and many are read for what they say;
* `follows_readItems` — reading goes on as long as there are items;
* `read_tells` — what the reading of any text says of the text, `Tells`.
-/

namespace Cdcl.Dimacs

/-! ## Items -/

variable {bs rest tail text blanks : List UInt8} {b : UInt8} {lits : List Lit}
  {items acc : List Item} {i : Item}

/-- The text begins with the items, and `tail` is what follows them. -/
inductive Leads (tail : List UInt8) : List UInt8 → List Item → Prop
  | nil : Leads tail tail []
  | item {blanks bs rest : List UInt8} {i : Item} {items : List Item} : Blanks blanks →
      Denotes rest bs i → Leads tail rest items → Leads tail (blanks ++ bs ++ rest) (i :: items)

/-- A text of the format begins with its items, and ends in blanks. -/
theorem text_iff_leads : Text bs items ↔ ∃ tail, Leads tail bs items ∧ Blanks tail := by
  constructor
  · intro said
    induction said with
    | blank blank => exact ⟨_, .nil, blank⟩
    | item blank denotes _ ih =>
        obtain ⟨tail, leads, blank'⟩ := ih
        exact ⟨tail, .item blank denotes leads, blank'⟩
  · rintro ⟨tail, leads, blank⟩
    induction leads with
    | nil => exact .blank blank
    | item blank' denotes _ ih => exact .item blank' denotes ih

/-! The reader goes by the first byte behind the blanks. -/

/-- Blanks are read for nothing. -/
theorem readItems_blanks (blank : Blanks bs) : readItems acc bs = ⟨acc.reverse, [], none⟩ := by
  rw [readItems]
  split
  next => rfl
  next start => cases (skipBlanks_eq_nil.mpr blank).symm.trans start

/-- The letter of a comment has its line skipped. -/
theorem readItems_comment (start : skipBlanks bs = 99 :: tail) :
    readItems acc bs = readItems (.comment :: acc) (skipLine tail) := by
  rw [readItems]
  split
  next none_ => cases start.symm.trans none_
  next found =>
    cases start.symm.trans found
    rw [if_neg (by decide), if_pos rfl]

/-- The letter of a header has two numbers read. -/
theorem readItems_header (start : skipBlanks bs = 112 :: tail) :
    readItems acc bs = match readHeader (112 :: tail) with
      | .ok (vars, clauses, rest) => readItems (.header vars clauses :: acc) rest
      | .error e => ⟨acc.reverse, [], some e⟩ := by
  rw [readItems]
  split
  next none_ => cases start.symm.trans none_
  next found =>
    cases start.symm.trans found
    rw [if_pos rfl]
    split
    next read => rw [read]
    next failed => rw [failed]

/-- Anything else has a clause read. -/
theorem readItems_clause (start : skipBlanks bs = b :: tail) (noHeader : b ≠ 112)
    (noComment : b ≠ 99) :
    readItems acc bs = match readClause [] bs with
      | .ok (lits, rest) => readItems (.clause lits :: acc) rest
      | .error (e, lits) => ⟨acc.reverse, lits, some e⟩ := by
  rw [readItems]
  split
  next none_ => cases start.symm.trans none_
  next found =>
    cases start.symm.trans found
    have same : readClause [] bs = readClause [] (b :: tail) := by
      rw [← start, readClause_skipBlanks]
    rw [if_neg noHeader, if_neg noComment, same]
    split
    next read => rw [read]
    next failed => rw [failed]

/-- The rest of a line is skipped with its end. -/
theorem skipLine_append {line : List UInt8} (unbroken : 10 ∉ line) :
    skipLine (line ++ 10 :: rest) = rest := by
  have inside : ∀ b ∈ line, decide (b ≠ 10) = true := fun b hb =>
    decide_eq_true fun same => unbroken (same ▸ hb)
  rw [skipLine, List.dropWhile_append_of_pos inside, List.dropWhile_cons_of_neg (by decide)]
  rfl

/-- The last line has no end, and nothing is left. -/
theorem skipLine_of_unbroken {line : List UInt8} (unbroken : 10 ∉ line) :
    skipLine line = [] := by
  have inside : ∀ b ∈ line, decide (b ≠ 10) = true := fun b hb =>
    decide_eq_true fun same => unbroken (same ▸ hb)
  rw [skipLine, List.dropWhile_eq_nil_iff.mpr inside]
  rfl

/-- An item is read for what it says. -/
theorem readItems_denotes (blank : Blanks blanks) (denotes : Denotes rest bs i) :
    readItems acc (blanks ++ bs ++ rest) = readItems (i :: acc) rest := by
  have ahead : skipBlanks (blanks ++ bs ++ rest) = skipBlanks (bs ++ rest) := by
    rw [List.append_assoc, skipBlanks_append blank]
  cases denotes with
  | @comment line unbroken =>
      have start : skipBlanks (blanks ++ (99 :: line ++ [10]) ++ rest) =
          99 :: (line ++ 10 :: rest) := by
        rw [ahead, List.cons_append, List.cons_append, skipBlanks_cons (by decide)]
        simp
      rw [readItems_comment start, skipLine_append unbroken]
  | @lastComment line unbroken last =>
      subst last
      have start : skipBlanks (blanks ++ 99 :: line ++ []) = 99 :: line := by
        rw [ahead, List.append_nil, skipBlanks_cons (by decide)]
      rw [readItems_comment start, skipLine_of_unbroken unbroken]
  | @header first second vars clauses number stops number' stops' =>
      have start : skipBlanks (blanks ++ (headerStart ++ first ++ second) ++ rest) =
          112 :: ([32, 99, 110, 102] ++ first ++ second ++ rest) := by
        rw [ahead]
        exact skipBlanks_cons (by decide)
      have read : readHeader (112 :: ([32, 99, 110, 102] ++ first ++ second ++ rest)) =
          .ok (vars, clauses, rest) :=
        readHeader_eq_ok.mpr ⟨first, second, rfl, number, stops, number', stops'⟩
      rw [readItems_header start, read]
  | @clause _ lits literals stops =>
      obtain ⟨blanks', b, tail, split_, blank', solid, noHeader, noComment⟩ := literals.opens
      have start : skipBlanks (blanks ++ bs ++ rest) = b :: (tail ++ rest) := by
        rw [ahead, split_, List.append_assoc, skipBlanks_append blank', List.cons_append,
          skipBlanks_cons solid]
      have read : readClause [] (blanks ++ bs ++ rest) = .ok (lits, rest) := by
        rw [← readClause_skipBlanks, ahead, readClause_skipBlanks]
        exact readClause_eq_ok.mpr ⟨bs, lits, rfl, literals, stops, rfl⟩
      rw [readItems_clause start noHeader noComment, read]

/-- By induction over the items that a text begins with, all of them are read. -/
theorem readItems_leads (leads : Leads tail bs items) :
    readItems acc bs = readItems (items.reverse ++ acc) tail := by
  induction leads generalizing acc with
  | nil => rfl
  | item blank denotes _ ih => rw [readItems_denotes blank denotes, ih]; simp

/-- A text of the format is read for its items. -/
theorem readItems_text (said : Text bs items) : readItems [] bs = ⟨items, [], none⟩ := by
  obtain ⟨tail, leads, blank⟩ := text_iff_leads.mp said
  rw [readItems_leads leads, readItems_blanks blank]
  simp

/-- What has been read stays read, by the recursion of the reader. -/
theorem prefix_readItems (acc : List Item) (bs : List UInt8) :
    acc.reverse <+: (readItems acc bs).items := by
  fun_induction readItems acc bs with
  | case1 => exact List.prefix_rfl
  | case2 acc _ _ _ _ _ _ _ ih =>
      rw [List.reverse_cons] at ih
      exact (List.prefix_append _ _).trans ih
  | case3 => exact List.prefix_rfl
  | case4 acc _ _ _ _ ih =>
      rw [List.reverse_cons] at ih
      exact (List.prefix_append _ _).trans ih
  | case5 acc _ _ _ _ _ _ _ _ _ ih =>
      rw [List.reverse_cons] at ih
      exact (List.prefix_append _ _).trans ih
  | case6 => exact List.prefix_rfl

/-! ## Where reading ends -/

/-- The text does not begin with a blank, and not with an item either. -/
structure Stuck (bs : List UInt8) : Prop where
  solid : ∃ b tail, bs = b :: tail ∧ isBlank b = false
  barred : ∀ text rest i, bs = text ++ rest → ¬Denotes rest text i

/-- A text that is read for no item, but not to its end, begins with none. -/
theorem stuck_of_readItems {r : Reading} (start : skipBlanks bs = b :: tail)
    (h : readItems [] (b :: tail) = r) (none_ : r.items = []) : Stuck (b :: tail) := by
  refine ⟨⟨b, tail, rfl, not_blank_of_skipBlanks start⟩, fun text rest i split_ denotes => ?_⟩
  -- an item at the front would have been read, and stay the first of all items
  have read : readItems [] ([] ++ text ++ rest) = readItems [i] rest :=
    readItems_denotes .nil denotes
  rw [List.nil_append, ← split_, h] at read
  have longer := prefix_readItems [i] rest
  rw [← read, none_] at longer
  simp at longer

/-- A comment is read up to the end of its line. -/
theorem exists_comment (tail : List UInt8) :
    ∃ text, 99 :: tail = text ++ skipLine tail ∧ Denotes (skipLine tail) text .comment := by
  have split_ := List.takeWhile_append_dropWhile (p := fun b => decide (b ≠ (10 : UInt8)))
    (l := tail)
  have unbroken : 10 ∉ tail.takeWhile (· ≠ 10) := by
    intro inside
    have other := List.mem_takeWhile_imp inside
    simp at other
  cases after : tail.dropWhile (· ≠ 10) with
  | nil =>
      rw [after, List.append_nil] at split_
      rw [split_] at unbroken
      rw [skipLine_of_unbroken unbroken]
      exact ⟨99 :: tail, (List.append_nil _).symm, .lastComment unbroken rfl⟩
  | cons b more =>
      have newline : b = 10 := by
        have head := List.head?_dropWhile_not (fun b => decide (b ≠ (10 : UInt8))) tail
        rw [after] at head
        simpa using head
      subst newline
      rw [after] at split_
      refine ⟨99 :: tail.takeWhile (· ≠ 10) ++ [10], ?_, .comment unbroken⟩
      rw [skipLine, after]
      simpa using split_.symm

/-- What is kept of an item that cannot be read: nothing of a header, and of a clause the
literals. -/
structure Leaves (bs : List UInt8) (lits : List Lit) : Prop where
  header : bs.head? = some 112 → lits = []
  clause : bs.head? ≠ some 112 → Begun bs lits

/-- How a text ends of which all items have been read: in blanks, or where no item begins.
Then the error tells whether the first bytes of a header were missing. -/
inductive Ends : List UInt8 → List Lit → Option ReadError → Prop
  | done {bs : List UInt8} : Blanks bs → Ends bs [] none
  | stuck {blanks rest : List UInt8} {lits : List Lit} {e : ReadError} : Blanks blanks →
      Stuck rest → Leaves rest lits →
      e.kind = (if rest.head? = some 112 ∧ rest.length < 5 then "UnexpectedEof"
        else "InvalidInput") → Ends (blanks ++ rest) lits (some e)

/-- The reading adds the items that the text begins with to those that have been read, and
stops where it has to. -/
def Follows (acc : List Item) (bs : List UInt8) (r : Reading) : Prop :=
  ∃ items tail, Leads tail bs items ∧ r.items = acc.reverse ++ items ∧
    Ends tail r.unfinished r.error

/-- An item in front may be added. -/
theorem Follows.item {r : Reading} (denotes : Denotes rest text i)
    (start : skipBlanks bs = text ++ rest) (f : Follows (i :: acc) rest r) :
    Follows acc bs r := by
  obtain ⟨blanks, blank, split_⟩ := exists_blanks bs
  obtain ⟨items, tail, leads, read, ends⟩ := f
  refine ⟨i :: items, tail, ?_, by rw [read]; simp, ends⟩
  rw [split_, start, ← List.append_assoc]
  exact .item blank denotes leads

/-- If the first item cannot be read, reading ends there. -/
theorem Follows.stuck {e : ReadError} (start : skipBlanks bs = b :: tail)
    (unread : readItems [] (b :: tail) = ⟨[], lits, some e⟩) (leaves : Leaves (b :: tail) lits)
    (kind : e.kind = if b = 112 ∧ (b :: tail).length < 5 then "UnexpectedEof"
      else "InvalidInput") : Follows acc bs ⟨acc.reverse, lits, some e⟩ := by
  obtain ⟨blanks, blank, split_⟩ := exists_blanks bs
  refine ⟨[], bs, .nil, (List.append_nil _).symm, ?_⟩
  rw [split_, start]
  refine .stuck blank (stuck_of_readItems start unread rfl) leaves ?_
  simpa using kind

/-- Reading goes on as long as there are items. -/
theorem follows_readItems (acc : List Item) (bs : List UInt8) :
    Follows acc bs (readItems acc bs) := by
  fun_induction readItems acc bs with
  | case1 acc bs none_ =>
      exact ⟨[], bs, .nil, (List.append_nil _).symm, .done (skipBlanks_eq_nil.mp none_)⟩
  | case2 acc bs tail vars clauses rest start read ih =>
      obtain ⟨first, second, split_, number, stops, number', stops'⟩ := readHeader_eq_ok.mp read
      exact ih.item (.header number stops number' stops') (start.trans split_)
  | case3 acc bs tail e start failed =>
      -- what begins with a `p` can be a header only
      have again : skipBlanks (112 :: tail) = 112 :: tail := skipBlanks_cons (by decide)
      refine .stuck start ?_ ⟨fun _ => rfl, fun other => absurd rfl other⟩ ?_
      · rw [readItems_header again, failed]
        rfl
      · simpa [headerStart] using readHeader_kind failed
  | case4 acc bs tail start _ ih =>
      obtain ⟨text, split_, denotes⟩ := exists_comment tail
      exact ih.item denotes (start.trans split_)
  | case5 acc bs b tail start _ _ lits rest read ih =>
      obtain ⟨text, lits, split_, literals, stops, rfl⟩ := readClause_eq_ok.mp read
      exact ih.item (.clause literals stops) (start.trans split_)
  | case6 acc bs b tail start noHeader noComment e lits failed =>
      have again : skipBlanks (b :: tail) = b :: tail :=
        skipBlanks_cons (not_blank_of_skipBlanks start)
      obtain ⟨more, rfl, begun⟩ := readClause_begun failed
      refine .stuck start ?_ ⟨fun head => absurd (Option.some.inj head) noHeader,
        fun _ => begun⟩ ?_
      · rw [readItems_clause again noHeader noComment, failed]
        rfl
      · rw [readClause_invalid failed, if_neg fun both => noHeader both.1]

/-! ## Widths -/

/-- The numbers of an item fit signed words, and its literals are of variables that can have
literals. -/
def Item.Fits : Item → Prop
  | .comment => True
  | .header vars clauses => vars.natAbs < numberSpan ∧ clauses.natAbs < numberSpan
  | .clause lits => ∀ l ∈ lits, l.var.index < Var.limit

/-- The numbers of an item fit, as the grammar asks. -/
theorem Denotes.fits (denotes : Denotes rest text i) : i.Fits := by
  cases denotes with
  | comment => trivial
  | lastComment => trivial
  | header number _ number' _ => exact ⟨number.fits, number'.fits⟩
  | clause literals _ =>
      induction literals with
      | last => exact nofun
      | next number _ _ _ ih => exact List.forall_mem_cons.mpr ⟨index_ofInt number.fits, ih⟩

theorem Leads.fits (leads : Leads tail bs items) : ∀ i ∈ items, i.Fits := by
  induction leads with
  | nil => exact nofun
  | item _ denotes _ ih => exact List.forall_mem_cons.mpr ⟨denotes.fits, ih⟩

/-- The numbers of the clause at which reading ends fit as well. -/
theorem unfinished_fits (acc : List Item) (bs : List UInt8) :
    ∀ l ∈ (readItems acc bs).unfinished, l.var.index < Var.limit := by
  fun_induction readItems acc bs with
  | case1 => exact nofun
  | case2 _ _ _ _ _ _ _ _ ih => exact ih
  | case3 => exact nofun
  | case4 _ _ _ _ _ ih => exact ih
  | case5 _ _ _ _ _ _ _ _ _ _ ih => exact ih
  | case6 _ _ _ _ _ _ _ _ _ failed => exact readClause_fits failed nofun

/-! ## The reading of a text -/

/-- Being strict changes the error only. -/
theorem items_read (strict : Bool) (bs : List UInt8) :
    (read strict bs).items = (readItems [] bs).items ∧
      (read strict bs).unfinished = (readItems [] bs).unfinished := by
  unfold read
  simp only
  split
  · exact ⟨rfl, rfl⟩
  · exact ⟨rfl, rfl⟩

/-- An error in the text comes before the count of its clauses. -/
theorem read_eq_of_error (strict : Bool) {e : ReadError}
    (h : (readItems [] bs).error = some e) : read strict bs = readItems [] bs := by
  unfold read
  simp [h]

/-- A text that has been read to its end is refused only if it is read strictly and declares
another number of clauses. -/
theorem error_read_of_complete (strict : Bool) (h : readItems [] bs = ⟨items, [], none⟩) :
    (read strict bs).error = if strict = true ∧ declaredClauses items ≠ countClauses items
      then some .wrongCount else none := by
  unfold read
  rw [h]
  simp only [Option.isNone_none, Bool.true_and, Bool.and_eq_true, decide_eq_true_eq]
  split
  · rfl
  · rfl

/-- What a reading tells of its text. -/
structure Tells (strict : Bool) (bs : List UInt8) (r : Reading) : Prop where
  /-- There is no error just if the text consists of items, and strictly also declares the
  number of its clauses. -/
  accepted : r.error = none ↔
    ∃ items, Text bs items ∧ (strict = true → declaredClauses items = countClauses items)
  items : ∀ items, Text bs items → r.items = items ∧ r.unfinished = []
  /-- Of another text the items are read up to where none begins. -/
  stuck : (¬∃ items, Text bs items) → ∃ blanks rest, Leads (blanks ++ rest) bs r.items ∧
    Blanks blanks ∧ Stuck rest ∧ Leaves rest r.unfinished
  /-- The end of the input is missed just if an item begins like a header and five bytes are
  not left of the text. -/
  short : r.error.map ReadError.kind = some "UnexpectedEof" ↔
    ∃ items blanks rest, Leads (blanks ++ rest) bs items ∧ Blanks blanks ∧
      rest.head? = some 112 ∧ rest.length < 5
  kind : ∀ e ∈ r.error, e.kind = "UnexpectedEof" ∨ e.kind = "InvalidInput"
  /-- No number that is read leaves its word. -/
  fits : (∀ i ∈ r.items, i.Fits) ∧ ∀ l ∈ r.unfinished, l.var.index < Var.limit

/-- A header of which fewer than five bytes are left misses the end of the input. -/
theorem readItems_short (leads : Leads (blanks ++ rest) bs items) (blank : Blanks blanks)
    (head : rest.head? = some 112) (few : rest.length < 5) :
    readItems [] bs = ⟨items, [], some .shortHeader⟩ := by
  obtain ⟨tail, rfl⟩ := List.head?_eq_some_iff.mp head
  have start : skipBlanks (blanks ++ 112 :: tail) = 112 :: tail := by
    rw [skipBlanks_append blank, skipBlanks_cons (by decide)]
  have failed : readHeader (112 :: tail) = .error .shortHeader := if_pos few
  rw [readItems_leads leads, readItems_header start, failed]
  simp

/-- No number that is read is too large for its word. -/
theorem read_fits (strict : Bool) (bs : List UInt8) : (∀ i ∈ (read strict bs).items, i.Fits) ∧
    ∀ l ∈ (read strict bs).unfinished, l.var.index < Var.limit := by
  obtain ⟨sameItems, sameRest⟩ := items_read strict bs
  obtain ⟨items, tail, leads, read_, -⟩ := follows_readItems [] bs
  rw [sameItems, sameRest, read_]
  exact ⟨leads.fits, unfinished_fits [] bs⟩

theorem kind_cases (e : ReadError) : e.kind = "UnexpectedEof" ∨ e.kind = "InvalidInput" := by
  cases e with
  | shortHeader => exact .inl rfl
  | _ => exact .inr rfl

/-- The reading of a text of the format. -/
theorem tells_of_text (strict : Bool) (said : Text bs items) :
    Tells strict bs (read strict bs) := by
  have complete := readItems_text said
  have same : ∀ items', Text bs items' → items' = items := fun items' said' =>
    congrArg Reading.items ((readItems_text said').symm.trans complete)
  have error := error_read_of_complete strict complete
  refine ⟨?_, fun items' said' => ?_, fun other => absurd ⟨items, said⟩ other, ?_,
    fun e _ => kind_cases e, read_fits strict bs⟩
  · rw [error]
    constructor
    · intro none_
      refine ⟨items, said, fun on => ?_⟩
      by_contra differ
      rw [if_pos ⟨on, differ⟩] at none_
      cases none_
    · rintro ⟨items', said', agree⟩
      obtain rfl := same items' said'
      exact if_neg fun both => both.2 (agree both.1)
  · obtain ⟨sameItems, sameRest⟩ := items_read strict bs
    rw [sameItems, sameRest, complete, same items' said']
    exact ⟨rfl, rfl⟩
  · rw [error]
    constructor
    · intro short
      split at short
      · exact absurd (Option.some.inj short) (by decide)
      · cases short
    · rintro ⟨items', blanks, rest, leads, blank, head, few⟩
      cases complete.symm.trans (readItems_short leads blank head few)

/-- The reading of any other text. -/
theorem tells_of_stuck (strict : Bool) {e : ReadError}
    (leads : Leads (blanks ++ rest) bs items) (blank : Blanks blanks) (barred : Stuck rest)
    (leaves : Leaves rest (readItems [] bs).unfinished)
    (read_ : (readItems [] bs).items = items) (error : (readItems [] bs).error = some e)
    (kind : e.kind = if rest.head? = some 112 ∧ rest.length < 5 then "UnexpectedEof"
      else "InvalidInput") : Tells strict bs (read strict bs) := by
  have noText : ¬∃ items, Text bs items := by
    rintro ⟨items', said⟩
    rw [readItems_text said] at error
    cases error
  have same := read_eq_of_error strict error
  refine ⟨⟨fun none_ => ?_, fun ⟨items', said, _⟩ => absurd ⟨items', said⟩ noText⟩,
    fun items' said => absurd ⟨items', said⟩ noText, fun _ => ?_, ?_,
    fun e _ => kind_cases e, read_fits strict bs⟩
  · rw [same, error] at none_
    cases none_
  · rw [same, read_]
    exact ⟨blanks, rest, leads, blank, barred, leaves⟩
  · rw [same]
    constructor
    · intro short
      rw [error, Option.map_some, kind] at short
      split at short
      next both => exact ⟨items, blanks, rest, leads, blank, both⟩
      next => exact absurd (Option.some.inj short) (by decide)
    · rintro ⟨items', blanks', rest', leads', blank', head, few⟩
      rw [readItems_short leads' blank' head few]
      rfl

/-- Reading accepts the texts of the format, for what they say, and stops in any other text
where no item begins. -/
theorem read_tells (strict : Bool) (bs : List UInt8) : Tells strict bs (read strict bs) := by
  obtain ⟨items, tail, leads, read_, ends⟩ := follows_readItems [] bs
  generalize error : (readItems [] bs).error = outcome, left : (readItems [] bs).unfinished = lits
    at ends
  cases ends with
  | done blank => exact tells_of_text strict (text_iff_leads.mpr ⟨tail, leads, blank⟩)
  | stuck blank barred leaves kind =>
      exact tells_of_stuck strict leads blank barred (left ▸ leaves) read_ error kind

end Cdcl.Dimacs
