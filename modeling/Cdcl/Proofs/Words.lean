import Cdcl.Proofs.Edits

/-!
# The words of the arena

The arena counts its words and does not hold them.  A memory that holds them has a block for
each clause: a header, one word a literal, and the activity if the clause is learnt.  It is
written to word by word, and what stands at an address is known from the header there.

* `Memory.store`, `Memory.writeLits`, `Memory.writeActivity`, `Memory.cut`, `Memory.discard`
  — what is done to the words;
* `Arena.Holds` — the words of every live clause stand at its place;
* `Arena.Keeps` — and the dead ones are counted; `Keeps.alloc`, `Keeps.write`,
  `Keeps.shrink`, `Keeps.free` — an operation on the arena is carried out by those on the
  memory;
* `Stands.read` — what is read at the place of a clause is the clause.
-/

namespace Cdcl

/-- A word of a memory. -/
inductive Word where
  | header (h : Header)
  | literal (l : Lit)
  | activity (x : Float32)
  /-- Where a clause has gone, in the place of its first literal. -/
  | address (r : Ref)

/-- A header, literals, and what comes behind them. -/
def laidOut (h : Header) (lits : List Lit) (extra : List Word) : List Word :=
  .header h :: (lits.map .literal ++ extra)

/-- The words behind the literals of a clause. -/
def Clause.extra (c : Clause) : List Word := if c.learnt then [.activity c.activity] else []

/-- The words of a stored clause. -/
def Clause.block (c : Clause) : List Word := laidOut c.header c.lits c.extra

theorem length_laidOut (h : Header) (lits : List Lit) (extra : List Word) :
    (laidOut h lits extra).length = 1 + lits.length + extra.length := by
  simp [laidOut]
  omega

theorem Clause.length_extra (c : Clause) : c.extra.length = c.learnt.toNat := by
  unfold extra
  cases c.learnt <;> rfl

/-- A clause has as many words as it is counted for. -/
theorem Clause.length_block (c : Clause) : c.block.length = c.words := by
  rw [block, length_laidOut, length_extra, length_lits, words]

theorem Clause.two_lt_words (c : Clause) : 2 < c.words := by
  unfold words size
  omega

/-- The header at an address. -/
def headerAt (m : List Word) (r : Ref) : Except Fault Header :=
  match m[r.offset]? with
  | some (.header h) => .ok h
  | _ => .error .conditionBroken

/-- The activity at an offset. -/
def activityAt (m : List Word) (i : Nat) : Except Fault Float32 :=
  match m[i]? with
  | some (.activity x) => .ok x
  | _ => .error .conditionBroken

/-- The literals that words stand for. -/
def literals : List Word → Except Fault (List Lit)
  | [] => .ok []
  | .literal l :: ws => return l :: (← literals ws)
  | _ => .error .conditionBroken

/-- Puts words in the place of those from an offset on. -/
def overwrite (m : List Word) (i : Nat) (ws : List Word) : List Word :=
  m.take i ++ ws ++ m.drop (i + ws.length)

/-- Words, and how many of them are dead. -/
structure Memory where
  words : List Word
  wasted : Nat

namespace Memory

/-- The memory without words. -/
def empty : Memory := ⟨[], 0⟩

/-- The literals of the clause at an address, and its activity if it has one. -/
def read (m : Memory) (r : Ref) : Except Fault (List Lit × Option Float32) := do
  let h ← headerAt m.words r
  let lits ← literals ((m.words.drop (r.offset + 1)).take h.size)
  if h.hasExtra then
    return (lits, some (← activityAt m.words (r.offset + 1 + h.size)))
  else
    return (lits, none)

/-- Stores a clause behind all words. -/
def store (m : Memory) (lits : List Lit) (learnt : Bool) : Except Fault (Memory × Ref) := do
  let h ← Header.make 0 learnt learnt false lits.length
  let words := m.words ++ laidOut h lits (if learnt then [.activity 0] else [])
  return ({ m with words }, ⟨m.words.length⟩)

/-- Writes literals of the clause at an address, from the `i`-th on. -/
def writeLits (m : Memory) (r : Ref) (i : Nat) (lits : List Lit) : Except Fault Memory := do
  let h ← headerAt m.words r
  ensure (i + lits.length ≤ h.size)
  return { m with words := overwrite m.words (r.offset + 1 + i) (lits.map .literal) }

/-- Writes the activity of the clause at an address. -/
def writeActivity (m : Memory) (r : Ref) (x : Float32) : Except Fault Memory := do
  let h ← headerAt m.words r
  ensure h.hasExtra
  return { m with words := overwrite m.words (r.offset + 1 + h.size) [.activity x] }

/-- Writes another size into the header at an address.  The activity moves up behind the
literals that are left. -/
def shorten (m : List Word) (r : Ref) (h : Header) (size : Nat) : Except Fault (List Word) := do
  let m := overwrite m r.offset [.header (← h.setSize size)]
  if h.hasExtra then
    let x ← activityAt m (r.offset + 1 + h.size)
    return overwrite m (r.offset + 1 + size) [.activity x]
  else
    return m

/-- Leaves the clause at an address its first `size` literals. -/
def cut (m : Memory) (r : Ref) (size : Nat) : Except Fault Memory := do
  let h ← headerAt m.words r
  ensure (2 ≤ size ∧ size ≤ h.size)
  if size < h.size then
    return ⟨← shorten m.words r h size, m.wasted + (h.size - size)⟩
  else
    return m

/-- Marks the clause at an address as dead, and counts its words. -/
def discard (m : Memory) (r : Ref) : Except Fault Memory := do
  let h ← headerAt m.words r
  return ⟨overwrite m.words r.offset [.header (← h.setMark 1)], m.wasted + h.words⟩

end Memory

section

variable {m new : List Word} {i : Nat} {r : Ref} (pre old post : List Word)

/-- Words that are overwritten stand between others, which stay. -/
theorem overwrite_eq (parts : m = pre ++ old ++ post) (start : i = pre.length)
    (length : new.length = old.length) : overwrite m i new = pre ++ new ++ post := by
  subst parts start
  simp [overwrite, length]

theorem headerAt_eq {h : Header} (parts : m = pre ++ .header h :: post)
    (start : r.offset = pre.length) : headerAt m r = .ok h := by
  subst parts
  simp [headerAt, start]

theorem activityAt_eq {x : Float32} (parts : m = pre ++ .activity x :: post)
    (start : i = pre.length) : activityAt m i = .ok x := by
  subst parts
  simp [activityAt, start]

/-- The words of literals stand for them. -/
theorem literals_map (lits : List Lit) : literals (lits.map .literal) = .ok lits := by
  induction lits with
  | nil => rfl
  | cons l lits ih =>
      rw [List.map_cons, literals, ih]
      rfl

end

namespace Memory

variable {m : Memory} {pre post extra : List Word} {r : Ref} {h : Header}
  {old lits : List Lit} {x y : Float32}

theorem headerAt_laidOut (parts : m.words = pre ++ laidOut h lits extra ++ post)
    (start : r.offset = pre.length) : headerAt m.words r = .ok h := by
  refine headerAt_eq pre (lits.map .literal ++ extra ++ post) ?_ start
  simp [parts, laidOut]

/-- Literals of a clause are replaced by as many others. -/
theorem writeLits_eq (keep new rest : List Lit)
    (parts : m.words = pre ++ laidOut h (keep ++ old ++ rest) extra ++ post)
    (start : r.offset = pre.length) (size : h.size = (keep ++ old ++ rest).length)
    (length : new.length = old.length) : m.writeLits r keep.length new =
      .ok { m with words := pre ++ laidOut h (keep ++ new ++ rest) extra ++ post } := by
  have inside : keep.length + new.length ≤ h.size := by
    simp only [size, List.length_append]
    omega
  refine bind_eq_ok.mpr ⟨h, headerAt_laidOut parts start, ?_⟩
  refine bind_eq_ok.mpr ⟨(), ensure_eq_ok.mpr (by simpa using inside), ?_⟩
  refine congrArg (fun words => Except.ok (⟨words, m.wasted⟩ : Memory)) ?_
  rw [overwrite_eq (pre ++ .header h :: keep.map .literal) (old.map .literal)
    (rest.map .literal ++ extra ++ post)]
  · simp [laidOut]
  · simp [parts, laidOut]
  · simp [start]
    omega
  · simp [length]

/-- The activity of a clause is replaced. -/
theorem writeActivity_eq (parts : m.words = pre ++ laidOut h lits [.activity x] ++ post)
    (start : r.offset = pre.length) (size : h.size = lits.length) (has : h.hasExtra = true) :
    m.writeActivity r y =
      .ok { m with words := pre ++ laidOut h lits [.activity y] ++ post } := by
  refine bind_eq_ok.mpr ⟨h, headerAt_laidOut parts start, ?_⟩
  refine bind_eq_ok.mpr ⟨(), ensure_eq_ok.mpr has, ?_⟩
  refine congrArg (fun words => Except.ok (⟨words, m.wasted⟩ : Memory)) ?_
  rw [overwrite_eq (pre ++ .header h :: lits.map .literal) [.activity x] post]
  · simp [laidOut]
  · simp [parts, laidOut]
  · simp [start, size]
    omega
  · rfl

/-- The header of a clause says that it is dead; nothing else changes. -/
theorem discard_eq (parts : m.words = pre ++ laidOut h lits extra ++ post)
    (start : r.offset = pre.length) : m.discard r =
      .ok ⟨pre ++ laidOut { h with mark := 1 } lits extra ++ post, m.wasted + h.words⟩ := by
  refine bind_eq_ok.mpr ⟨h, headerAt_laidOut parts start, ?_⟩
  refine congrArg (fun words => Except.ok (⟨words, m.wasted + h.words⟩ : Memory)) ?_
  rw [overwrite_eq pre [.header h] (lits.map .literal ++ extra ++ post)]
  · simp [laidOut]
  · simp [parts, laidOut]
  · exact start
  · rfl

/-- The activity of a clause that has been shortened stands in front of the dead words. -/
theorem shorten_eq {words : List Word} {kept gone : List Lit}
    (parts : words = pre ++ laidOut h (kept ++ gone) extra ++ post)
    (start : r.offset = pre.length) (size : h.size = (kept ++ gone).length)
    (less : kept.length < h.size) (fits : h.size ≤ Header.maxSize)
    (has : if h.hasExtra then ∃ x, extra = [.activity x] else extra = []) :
    ∃ dead, dead.length = gone.length ∧ shorten words r h kept.length =
      .ok (pre ++ (laidOut { h with size := kept.length } kept extra ++ dead) ++ post) := by
  have shorter : h.setSize kept.length = .ok { h with size := kept.length } :=
    bind_eq_ok.mpr ⟨(), ensure_eq_ok.mpr (by simp; omega), rfl⟩
  have marked : overwrite words r.offset [.header { h with size := kept.length }] =
      pre ++ laidOut { h with size := kept.length } (kept ++ gone) extra ++ post := by
    rw [overwrite_eq pre [.header h] ((kept ++ gone).map .literal ++ extra ++ post)]
    · simp [laidOut]
    · simp [parts, laidOut]
    · exact start
    · rfl
  by_cases extra? : h.hasExtra = true
  · rw [if_pos extra?] at has
    obtain ⟨x, rfl⟩ := has
    obtain ⟨g, gs, rfl⟩ : ∃ g gs, gone = g :: gs :=
      List.exists_cons_of_ne_nil fun none => by simp [none] at size; omega
    refine ⟨gs.map .literal ++ [.activity x], by simp, bind_eq_ok.mpr ⟨_, shorter, ?_⟩⟩
    rw [if_pos extra?, marked]
    refine bind_eq_ok.mpr ⟨x, ?_, congrArg Except.ok ?_⟩
    · refine activityAt_eq
        (pre ++ .header { h with size := kept.length } :: (kept ++ g :: gs).map .literal) post ?_ ?_
      · simp [laidOut]
      · simp [start, size]
        omega
    · rw [overwrite_eq (pre ++ .header { h with size := kept.length } :: kept.map .literal)
        [.literal g] (gs.map .literal ++ .activity x :: post)]
      · simp [laidOut]
      · simp [laidOut]
      · simp [start]
        omega
      · rfl
  · rw [if_neg extra?] at has
    subst has
    refine ⟨gone.map .literal, by simp, bind_eq_ok.mpr ⟨_, shorter, ?_⟩⟩
    rw [if_neg extra?, marked]
    simp [laidOut, pure, Except.pure]

/-- The words that are cut off a clause are counted as dead. -/
theorem cut_eq {kept gone : List Lit}
    (parts : m.words = pre ++ laidOut h (kept ++ gone) extra ++ post)
    (start : r.offset = pre.length) (size : h.size = (kept ++ gone).length)
    (long : 2 ≤ kept.length) (fits : h.size ≤ Header.maxSize)
    (has : if h.hasExtra then ∃ x, extra = [.activity x] else extra = []) :
    ∃ dead, dead.length = gone.length ∧ m.cut r kept.length =
      .ok ⟨pre ++ (laidOut { h with size := kept.length } kept extra ++ dead) ++ post,
        m.wasted + gone.length⟩ := by
  have total : h.size = kept.length + gone.length := size.trans List.length_append
  have guard : ensure (2 ≤ kept.length ∧ kept.length ≤ h.size) = .ok () :=
    ensure_eq_ok.mpr (by simp; omega)
  have read := headerAt_laidOut parts start
  rcases Nat.lt_or_ge kept.length h.size with less | all
  · obtain ⟨dead, length, shortened⟩ := shorten_eq parts start size less fits has
    refine ⟨dead, length, bind_eq_ok.mpr ⟨h, read, bind_eq_ok.mpr ⟨(), guard, ?_⟩⟩⟩
    rw [if_pos less, total, Nat.add_sub_cancel_left]
    exact bind_eq_ok.mpr ⟨_, shortened, rfl⟩
  · obtain rfl : gone = [] := List.length_eq_zero_iff.mp (by omega)
    have same : kept.length = h.size := by simp [total]
    have whole : { h with size := kept.length } = h := by rw [same]
    rw [List.append_nil] at parts
    refine ⟨[], rfl, bind_eq_ok.mpr ⟨h, read, bind_eq_ok.mpr ⟨(), guard, ?_⟩⟩⟩
    rw [if_neg (by omega), whole, List.append_nil, ← parts]
    rfl

end Memory

namespace Arena

variable {a b : Arena} {m : List Word} {id : ClauseId} {s t : Stored} {c d : Clause}

/-- Where a live clause stands. -/
def placeOf (a : Arena) (id : ClauseId) : Ref := (a.find? id).elim .undef Stored.place

theorem placeOf_eq (found : a.find? id = some s) : a.placeOf id = s.place := by
  rw [placeOf, found]
  rfl

/-- The words of a clause stand at an offset. -/
def Stands (m : List Word) (s : Stored) : Prop :=
  (m.drop s.place.offset).take s.clause.words = s.clause.block

/-- The memory has as many words as the arena counts, and those of every live clause stand
at its place. -/
structure Holds (a : Arena) (m : List Word) : Prop where
  size : m.length = a.size
  stands : ∀ {id s}, a.find? id = some s → Stands m s

/-! ## The words of one clause -/

/-- The words from the place of a clause on are its own, as many as it has. -/
theorem Stands.getElem? {i : Nat} (h : Stands m s) (inside : i < s.clause.words) :
    m[s.place.offset + i]? = s.clause.block[i]? := by
  rw [← h, List.getElem?_take_of_lt inside, List.getElem?_drop]

/-- A clause ends before the memory does. -/
theorem Stands.inside (h : Stands m s) : s.place.offset + s.clause.words ≤ m.length := by
  have length := congrArg List.length h
  rw [Clause.length_block, List.length_take, List.length_drop] at length
  have := s.clause.two_lt_words
  omega

/-- What is read at the place of a clause first is its header. -/
theorem Stands.header (h : Stands m s) : headerAt m s.place = .ok s.clause.header := by
  have first := h.getElem? (i := 0) (by have := s.clause.two_lt_words; omega)
  unfold headerAt
  rw [← Nat.add_zero s.place.offset, first]
  rfl

/-- Other words stand before and behind those of a clause. -/
theorem Stands.exists_parts (h : Stands m s) : ∃ pre post,
    m = pre ++ s.clause.block ++ post ∧ s.place.offset = pre.length := by
  have inside := h.inside
  refine ⟨m.take s.place.offset, m.drop (s.place.offset + s.clause.words), ?_, ?_⟩
  · rw [← h, List.append_assoc, ← List.drop_drop, List.take_append_drop, List.take_append_drop]
  · rw [List.length_take]
    omega

/-- A clause stands where its words stand between others. -/
theorem stands_of_parts {pre post : List Word} (parts : m = pre ++ s.clause.block ++ post)
    (start : s.place.offset = pre.length) : Stands m s := by
  subst parts
  rw [Stands, start, List.append_assoc, List.drop_left, ← s.clause.length_block, List.take_left]

/-- Words outside of a block do not count for it. -/
theorem Stands.replace {pre old new post : List Word} (h : Stands (pre ++ old ++ post) s)
    (length : new.length = old.length)
    (outside : s.place.offset + s.clause.words ≤ pre.length ∨
      pre.length + old.length ≤ s.place.offset) : Stands (pre ++ new ++ post) s := by
  rw [Stands, ← h]
  rcases outside with before | behind
  · rw [List.append_assoc, List.append_assoc, List.drop_append_of_le_length (by omega),
      List.drop_append_of_le_length (by omega), List.take_append_of_le_length,
      List.take_append_of_le_length]
    all_goals rw [List.length_drop]; omega
  · have far : ∀ ws : List Word, ws.length = old.length →
        (pre ++ ws ++ post).drop s.place.offset =
          post.drop (s.place.offset - (pre.length + old.length)) := by
      intro ws same
      have size : (pre ++ ws).length = pre.length + old.length := by
        rw [List.length_append, same]
      rw [List.drop_append, List.drop_of_length_le (size ▸ behind), List.nil_append, size]
    rw [far new length, far old rfl]

/-- A word outside of a block may be written without harm to it. -/
theorem Stands.set {i : Nat} {x : Word} (h : Stands m s)
    (outside : i < s.place.offset ∨ s.place.offset + s.clause.words ≤ i) :
    Stands (m.set i x) s := by
  unfold Stands at *
  rw [← h, List.drop_set]
  split
  next => rfl
  next later => exact List.take_set_of_le (by omega)

theorem stands_append (m : List Word) (c : Clause) : Stands (m ++ c.block) ⟨c, ⟨m.length⟩⟩ :=
  stands_of_parts (List.append_nil _).symm rfl

theorem Stands.append {ws : List Word} (h : Stands m s) : Stands (m ++ ws) s := by
  obtain ⟨pre, post, rfl, start⟩ := h.exists_parts
  exact stands_of_parts (List.append_assoc _ _ _) start

/-- What is read at the place of a clause is the clause. -/
theorem Stands.read {wasted : Nat} (h : Stands m s) : Memory.read ⟨m, wasted⟩ s.place =
    .ok (s.clause.lits, if s.clause.learnt then some s.clause.activity else none) := by
  obtain ⟨pre, post, parts, start⟩ := h.exists_parts
  have lits : literals ((m.drop (s.place.offset + 1)).take s.clause.size) =
      .ok s.clause.lits := by
    have shape : m = (pre ++ [.header s.clause.header]) ++
        (s.clause.lits.map .literal ++ (s.clause.extra ++ post)) := by
      simp [parts, Clause.block, laidOut]
    have first : s.place.offset + 1 = (pre ++ [Word.header s.clause.header]).length := by
      rw [start, List.length_append, List.length_singleton]
    have size : s.clause.size = (s.clause.lits.map Word.literal).length := by
      rw [List.length_map, Clause.length_lits]
    rw [shape, first, size, List.drop_left, List.take_left, literals_map]
  refine bind_eq_ok.mpr ⟨_, h.header, bind_eq_ok.mpr ⟨_, lits, ?_⟩⟩
  cases learnt : s.clause.learnt with
  | false => simp [Clause.header, learnt, pure, Except.pure]
  | true =>
      have read : activityAt m (s.place.offset + 1 + s.clause.size) = .ok s.clause.activity := by
        refine activityAt_eq (pre ++ .header s.clause.header :: s.clause.lits.map .literal)
          post ?_ ?_
        · simp [parts, Clause.block, Clause.extra, laidOut, learnt]
        · simp [start]
          omega
      simp only [Clause.header, learnt, if_true]
      exact bind_eq_ok.mpr ⟨_, read, rfl⟩

/-! ## The words of all clauses -/

theorem block?_of_find? (found : a.find? id = some s) :
    a.block? id = some ⟨s.place.offset, s.clause.words⟩ := by
  rw [block?, found]
  rfl

theorem Laid.apart_of_find? {t : Stored} {j : ClauseId} (laid : a.Laid) (other : id ≠ j)
    (here : a.find? id = some s) (there : a.find? j = some t) :
    s.place.offset + s.clause.words ≤ t.place.offset ∨
      t.place.offset + t.clause.words ≤ s.place.offset :=
  laid.apart other (block?_of_find? here) (block?_of_find? there)

/-- A clause that is moved behind the others takes its words with it. -/
theorem Holds.append (held : b.Holds new) (moved : Appends s id b b') :
    b'.Holds (new ++ s.clause.block) where
  size := by rw [List.length_append, s.clause.length_block, held.size, moved.size]
  stands {j t} found := by
    rw [moved.found] at found
    split at found
    next =>
      cases found
      exact held.size ▸ stands_append new s.clause
    next => exact (held.stands found).append

/-- The memory holds the words of the arena and counts the dead ones as the arena does, and
the sizes of the clauses fit their headers. -/
structure Keeps (a : Arena) (m : Memory) : Prop where
  holds : a.Holds m.words
  wasted : m.wasted = a.wasted
  fits : ∀ {id s}, a.find? id = some s → s.clause.size ≤ Header.maxSize

theorem Keeps.empty : empty.Keeps .empty := by
  have nothing : ∀ id, Arena.empty.find? id = none := fun _ => rfl
  refine ⟨⟨rfl, fun found => ?_⟩, rfl, fun found => ?_⟩ <;> cases (nothing _).symm.trans found

/-- One clause is replaced where it stands, or given up, and its words with it. -/
theorem Keeps.replace {m : Memory} {pre post ws : List Word} {t : Option Stored} {wasted : Nat}
    (laid : a.Laid) (k : a.Keeps m) (parts : m.words = pre ++ s.clause.block ++ post)
    (here : a.find? id = some s) (start : s.place.offset = pre.length)
    (length : ws.length = s.clause.words) (size : b.size = a.size) (count : wasted = b.wasted)
    (found : ∀ j, b.find? j = if j = id then t else a.find? j)
    (new : ∀ u ∈ t, u.place = s.place ∧ u.clause.size ≤ s.clause.size ∧
      ∃ dead, ws = u.clause.block ++ dead) : b.Keeps ⟨pre ++ ws ++ post, wasted⟩ := by
  have held : a.Holds (pre ++ s.clause.block ++ post) := parts ▸ k.holds
  refine ⟨⟨?_, fun {j u} there => ?_⟩, count, fun {j u} there => ?_⟩
  · rw [size, ← held.size]
    simp only [List.length_append, length, s.clause.length_block]
  · rw [found] at there
    split at there
    next =>
      obtain ⟨place, -, dead, rfl⟩ := new u there
      have behind : pre ++ (u.clause.block ++ dead) ++ post =
          pre ++ u.clause.block ++ (dead ++ post) := by simp
      exact stands_of_parts behind (place ▸ start)
    next other =>
      have apart := laid.apart_of_find? (Ne.symm other) here there
      refine (held.stands there).replace (length.trans s.clause.length_block.symm) ?_
      rw [s.clause.length_block, ← start]
      omega
  · rw [found] at there
    split at there
    next => exact (new u there).2.1.trans (k.fits here)
    next => exact k.fits there

/-- Storing a clause stores its words behind all others. -/
theorem Keeps.alloc {m : Memory} (k : a.Keeps m) (unused : c.activity = 0)
    (h : a.alloc c = .ok (b, id)) :
    ∃ m', m.store c.lits c.learnt = .ok (m', b.placeOf id) ∧ b.Keeps m' := by
  obtain ⟨size, wasted⟩ := words_alloc h
  have found := find?_alloc h
  obtain ⟨_, fits, -⟩ := bind_eq_ok.mp h
  have fits : c.size ≤ Header.maxSize := by simpa using ensureWidth_eq_ok.mp fits
  have header : Header.make 0 c.learnt c.learnt false c.lits.length = .ok c.header :=
    bind_eq_ok.mpr ⟨(), rfl, bind_eq_ok.mpr ⟨(), ensure_eq_ok.mpr (decide_eq_true fits), rfl⟩⟩
  have holds : b.Holds (m.words ++ c.block) :=
    k.holds.append (s := ⟨c, ⟨a.size⟩⟩) ⟨size, wasted, found⟩
  refine ⟨⟨m.words ++ c.block, m.wasted⟩, bind_eq_ok.mpr ⟨_, header, ?_⟩, holds,
    k.wasted.trans wasted.symm, fun {j s} there => ?_⟩
  · rw [placeOf_eq ((found id).trans (if_pos rfl)), ← k.holds.size, Clause.block, Clause.extra,
      unused]
    rfl
  · rw [found] at there
    split at there
    · cases there
      exact fits
    · exact k.fits there

/-- Rewriting a clause where it stands writes its literals, and its activity if it has one. -/
theorem Keeps.write {m : Memory} (laid : a.Laid) (k : a.Keeps m) (read : a.get id = .ok c)
    (h : a.set id d = .ok b) (size : d.size = c.size) (learnt : d.learnt = c.learnt) :
    ∃ m₁ m', m.writeLits (a.placeOf id) 0 d.lits = .ok m₁ ∧
      (if d.learnt then m₁.writeActivity (a.placeOf id) d.activity else .ok m₁) = .ok m' ∧
      b.Keeps m' := by
  obtain ⟨s, here, rfl⟩ := get_eq_ok.mp read
  obtain ⟨t, here', found⟩ := find?_set h
  cases here.symm.trans here'
  obtain ⟨pre, post, parts, start⟩ := (k.holds.stands here).exists_parts
  obtain ⟨words, wasted⟩ := words_set h
  have header : s.clause.header = d.header := by
    rw [Clause.header, Clause.header, size, learnt]
  have kept : b.Keeps ⟨pre ++ d.block ++ post, m.wasted⟩ := by
    refine k.replace laid parts here start ?_ words (k.wasted.trans wasted.symm) found ?_
    · rw [d.length_block, words_congr size learnt]
    · rintro _ ⟨⟩
      exact ⟨rfl, Nat.le_of_eq size, [], (List.append_nil _).symm⟩
  have parts' : m.words =
      pre ++ laidOut d.header ([] ++ s.clause.lits ++ []) s.clause.extra ++ post := by
    rw [parts, Clause.block, header, List.append_nil, List.nil_append]
  have full : d.header.size = ([] ++ s.clause.lits ++ []).length := by
    simp [Clause.header, size]
  have written := Memory.writeLits_eq [] d.lits [] parts' start full size
  rw [placeOf_eq here]
  refine ⟨_, _, written, ?_, kept⟩
  cases kind : d.learnt with
  | false =>
      have none_ : s.clause.extra = d.extra := by
        rw [Clause.extra, Clause.extra, ← learnt, kind]
        rfl
      rw [if_neg nofun, none_, List.append_nil, List.nil_append]
      rfl
  | true =>
      have one : s.clause.extra = [.activity s.clause.activity] := by
        rw [Clause.extra, ← learnt, kind]
        rfl
      have one' : d.extra = [.activity d.activity] := by
        rw [Clause.extra, kind]
        rfl
      rw [if_pos rfl, Clause.block, one']
      refine Memory.writeActivity_eq (x := s.clause.activity) ?_ start rfl kind
      rw [one, List.append_nil, List.nil_append]

/-- Cutting literals off a clause writes those that stay, and shortens it. -/
theorem Keeps.shrink {m : Memory} {rest : List Lit} (laid : a.Laid) (k : a.Keeps m)
    (h : a.shrink id rest = .ok b) : ∃ m₁ m',
      m.writeLits (a.placeOf id) 2 rest = .ok m₁ ∧
      m₁.cut (a.placeOf id) (rest.length + 2) = .ok m' ∧ b.Keeps m' := by
  obtain ⟨c, b₁, read, shorter, written, rfl⟩ := shrink_eq_ok h
  obtain ⟨s, here, rfl⟩ := get_eq_ok.mp read
  obtain ⟨t, here', found⟩ := find?_set written
  cases here.symm.trans here'
  obtain ⟨pre, post, parts, start⟩ := (k.holds.stands here).exists_parts
  obtain ⟨words, wasted⟩ := words_set written
  -- the words of the literals that are cut off are the last ones
  obtain ⟨old, gone, split, length⟩ : ∃ old gone, s.clause.rest = old ++ gone ∧
      rest.length = old.length :=
    ⟨s.clause.rest.take rest.length, s.clause.rest.drop rest.length,
      (List.take_append_drop _ _).symm, by simp [shorter]⟩
  have parts' : m.words = pre ++ laidOut s.clause.header
      ([s.clause.first, s.clause.second] ++ old ++ gone) s.clause.extra ++ post := by
    rw [parts, Clause.block, Clause.lits, split]
    simp
  have full : s.clause.header.size = gone.length + rest.length + 2 := by
    simp [Clause.header, Clause.size, split, length]
    omega
  obtain ⟨m₁, writes, words₁, wasted₁⟩ : ∃ m₁, m.writeLits s.place 2 rest = .ok m₁ ∧
      m₁.words = pre ++ laidOut s.clause.header
        ([s.clause.first, s.clause.second] ++ rest ++ gone) s.clause.extra ++ post ∧
      m₁.wasted = m.wasted :=
    ⟨_, Memory.writeLits_eq [s.clause.first, s.clause.second] rest gone parts' start
      (by simp [full, length]; omega) length, rfl, rfl⟩
  have has : if s.clause.header.hasExtra then ∃ x, s.clause.extra = [.activity x]
      else s.clause.extra = [] := by
    change if s.clause.learnt then _ else _
    unfold Clause.extra
    cases s.clause.learnt
    · rfl
    · exact ⟨_, rfl⟩
  obtain ⟨dead, left, cut⟩ := Memory.cut_eq words₁ start (by simp [full]; omega) (by simp)
    (k.fits here) has
  rw [placeOf_eq here]
  refine ⟨m₁, _, writes, cut, k.replace laid parts here start ?_ words ?_ found ?_⟩
  · rw [List.length_append, length_laidOut, s.clause.length_extra, left, Clause.words,
      Clause.size, split]
    simp [length]
    omega
  · rw [wasted₁, k.wasted, wasted, split, List.length_append, length, Nat.add_sub_cancel_left]
  · rintro _ ⟨⟩
    exact ⟨rfl, Nat.add_le_add_right shorter 2, dead, rfl⟩

/-- Giving a clause up marks its words as dead. -/
theorem Keeps.free {m : Memory} (laid : a.Laid) (k : a.Keeps m) (h : a.free id = .ok b) :
    ∃ m', m.discard (a.placeOf id) = .ok m' ∧ b.Keeps m' := by
  obtain ⟨c, read, size, wasted⟩ := words_free h
  obtain ⟨s, here, rfl⟩ := get_eq_ok.mp read
  obtain ⟨pre, post, parts, start⟩ := (k.holds.stands here).exists_parts
  refine ⟨_, placeOf_eq here ▸ Memory.discard_eq parts start, ?_⟩
  refine k.replace laid parts here start ?_ size ?_ (find?_free h) nofun
  · rw [length_laidOut, s.clause.length_extra, Clause.length_lits, Clause.words]
  · rw [k.wasted, wasted, Clause.words_header]

end Arena

end Cdcl
