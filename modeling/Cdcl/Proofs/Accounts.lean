import Mathlib.Algebra.BigOperators.Group.List.Basic
import Mathlib.Algebra.GroupWithZero.Nat
import Cdcl.Proofs.Success.Upkeep

/-!
# What the arena holds

The rows name the blocks of the arena, and all its counters can be read off them:
`View.Accounted`.  So no counter falls below zero when a clause goes or shrinks.

* `Chain.edits`, `Chain.laid` — a chain of steps edits the arena, so that no blocks come to
  overlap;
* `Indexed.total_rows` — a sum over the stored clauses is a sum over the rows;
* `Indexed.accounted` — where the clauses are indexed and laid, the counters are right;
* `failsOnly_trimClause_of`, `failsOnly_collect_of` — trimming and compacting subtract no
  more than there is;
* `Reaches.arena_accounted` — the theorem about runs.
-/

namespace Cdcl

open Network (SameCounts SameShapes)

variable {v v' : View}

/-! ## Blocks -/

namespace View

/-- A step edits the arena. -/
theorem Step.edits (h : v.Step v') : v.net.db.arena.Edits v'.net.db.arena := by
  cases h with
  | steady s => exact s.counts.edits
  | reorder => exact .refl
  | turn _ counts => exact counts.edits
  | move _ counts => exact counts.edits
  | imply _ e => exact e.db ▸ .refl
  | lead _ e => exact e.db ▸ .refl
  | openLevel => exact .refl
  | back b => exact b.db ▸ .refl
  | store _ edits => exact edits
  | drop d => exact d.edits
  | trim t => exact t.edits
  | compact k => exact k.edits
  | addVar => exact .refl

/-- A chain edits the arena. -/
theorem Chain.edits (h : v.Chain v') : v.net.db.arena.Edits v'.net.db.arena := by
  induction h with
  | refl => exact .refl
  | tail _ step ih => exact ih.trans step.edits

/-- No chain of steps makes blocks overlap. -/
theorem Chain.laid (h : v.Chain v') (laid : v.net.db.arena.Laid) : v'.net.db.arena.Laid :=
  h.edits.laid laid

end View

/-! ## Sums over the rows -/

/-- A list that names each clause that counts for something once has the whole sum. -/
theorem Arena.total_eq_sum {a : Arena} {f : Clause → Nat} {ids : List ClauseId}
    (once : ids.Nodup) (rest : ∀ id, id ∉ ids → weight f (a.body? id) = 0) :
    a.total f = (ids.map fun id => weight f (a.body? id)).sum := by
  have once' : (ids.map ClauseId.index).Nodup :=
    once.map fun i j same => by cases i; cases j; exact congrArg _ same
  have slots : ∑ i ∈ Finset.range a.slots.size, weight f (a.body? ⟨i⟩) =
      ∑ i ∈ Finset.range a.slots.size ∪ (ids.map ClauseId.index).toFinset,
        weight f (a.body? ⟨i⟩) := by
    refine Finset.sum_subset Finset.subset_union_left fun i _ out => ?_
    rw [Finset.mem_range, Nat.not_lt] at out
    rw [body?_of_size_le out]
    rfl
  have named : ∑ i ∈ (ids.map ClauseId.index).toFinset, weight f (a.body? ⟨i⟩) =
      ∑ i ∈ Finset.range a.slots.size ∪ (ids.map ClauseId.index).toFinset,
        weight f (a.body? ⟨i⟩) := by
    refine Finset.sum_subset Finset.subset_union_right fun i _ out => rest ⟨i⟩ fun inside => out ?_
    exact List.mem_toFinset.mpr (List.mem_map.mpr ⟨⟨i⟩, inside, rfl⟩)
  rw [total, slots, ← named, List.sum_toFinset _ once', List.map_map]
  rfl

namespace View

/-- The clauses that the rows name. -/
def ids (v : View) : List ClauseId := v.rows false ++ v.rows true

namespace Indexed

/-- What counts for nothing in clauses of the other kind is counted along a row. -/
theorem total_row (x : v.Indexed) {learnt : Bool} {f : Clause → Nat}
    (own : ∀ c, c.learnt ≠ learnt → f c = 0) : v.net.db.arena.total f =
      ((v.rows learnt).map fun id => Arena.weight f (v.net.body? id)).sum := by
  refine Arena.total_eq_sum (x.once learnt) fun id out => ?_
  change Arena.weight f (v.net.body? id) = 0
  cases stored : v.net.body? id with
  | none => rfl
  | some c => exact own c fun kind => out ((x.listed learnt id).mpr ⟨c, stored, kind⟩)

/-- What clauses count for is counted along both rows. -/
theorem total_rows (x : v.Indexed) (f : Clause → Nat) : v.net.db.arena.total f =
    (v.ids.map fun id => Arena.weight f (v.net.body? id)).sum := by
  refine Arena.total_eq_sum x.nodup_rows fun id out => ?_
  change Arena.weight f (v.net.body? id) = 0
  cases stored : v.net.body? id with
  | none => rfl
  | some c => exact absurd (x.mem_rows.mpr ⟨c, stored⟩) out

end Indexed

/-- The rows name the blocks of the arena, and the counters are right. -/
structure Accounted (v : View) : Prop where
  once : v.ids.Nodup
  stored : ∀ learnt, ∀ id ∈ v.rows learnt, ∃ c start, v.net.clause id = .ok c ∧
    c.header.mark = 0 ∧ c.header.learnt = learnt ∧ c.header.hasExtra = learnt ∧
    c.header.relocated = false ∧ 2 ≤ c.header.size ∧
    v.net.db.arena.block? id = some ⟨start, c.header.words⟩ ∧
    start + c.header.words ≤ v.net.db.arena.size
  apart : ∀ {i j block block'}, i ≠ j → v.net.db.arena.block? i = some block →
    v.net.db.arena.block? j = some block' → Disjoint block.cells block'.cells
  wasted : v.net.db.arena.size = v.net.db.arena.wasted +
    (v.ids.map fun id => Arena.weight Clause.words (v.net.body? id)).sum
  clauses : ∀ learnt, (v.net.tally learnt).clauses = (v.rows learnt).length
  literals : ∀ learnt, (v.net.tally learnt).literals =
    ((v.rows learnt).map fun id => Arena.weight Clause.size (v.net.body? id)).sum

/-- Rows and counters that are exact, and blocks that do not overlap, account for the arena. -/
theorem Indexed.accounted (x : v.Indexed) (laid : v.net.db.arena.Laid) : v.Accounted where
  once := x.nodup_rows
  stored learnt id inside := by
    obtain ⟨b, stored, kind⟩ := (x.listed learnt id).mp inside
    obtain ⟨c, read, rfl⟩ := Network.exists_clause stored
    obtain ⟨s, found, same⟩ := Arena.get_eq_ok.mp read
    have block : v.net.db.arena.block? id = some ⟨s.place.offset, c.words⟩ := by
      rw [Arena.block?, found, ← same]
      rfl
    exact ⟨c, s.place.offset, read, rfl, kind, kind, rfl, Nat.le_add_left 2 _, block,
      laid.inside block⟩
  apart other here here' := (laid.apart other here here').disjoint
  wasted := x.total_rows Clause.words ▸ x.words
  clauses learnt := by
    have one : ∀ id ∈ v.rows learnt,
        Arena.weight (Clause.countIf learnt) (v.net.body? id) = 1 := by
      intro id inside
      obtain ⟨c, stored, kind⟩ := (x.listed learnt id).mp inside
      rw [stored]
      exact if_pos kind
    rw [x.clauses, x.total_row (f := Clause.countIf learnt) fun c other => if_neg other,
      List.map_congr_left one]
    simp
  literals learnt := by
    rw [x.literals, x.total_row (f := Clause.sizeIf learnt) fun c other => if_neg other]
    refine congrArg _ (List.map_congr_left fun id inside => ?_)
    obtain ⟨c, stored, kind⟩ := (x.listed learnt id).mp inside
    rw [stored]
    exact if_pos kind

end View

/-! ## What is subtracted -/

section Counts

variable {e : Fault → Prop} (range : e .outOfRange) (broken : e .conditionBroken)

include range in
theorem DenseMap.failsOnly_get_of {κ α : Type} [DenseKey κ] {m : DenseMap κ α} {k : κ} :
    FailsOnly e (m.get k) := by
  unfold get
  split
  · exact .ok _
  · exact .throw range

include range in
theorem DenseMap.failsOnly_set_of {κ α : Type} [DenseKey κ] {m : DenseMap κ α} {k : κ} {x : α} :
    FailsOnly e (m.set k x) := by
  unfold set
  split
  · exact .ok _
  · exact .throw range

include range in
theorem failsOnly_litValue_of {t : Trail} {l : Lit} : FailsOnly e (t.litValue l) :=
  .bind (DenseMap.failsOnly_get_of range) fun _ _ => .ok _

include broken in
theorem Arena.failsOnly_get_of {a : Arena} {id : ClauseId} : FailsOnly e (a.get id) := by
  unfold get
  split
  · exact .ok _
  · exact .throw broken

include broken in
theorem Arena.failsOnly_set_of {a : Arena} {id : ClauseId} {c : Clause} :
    FailsOnly e (a.set id c) := by
  unfold set
  split
  · exact .ok _
  · exact .throw broken

include broken in
theorem failsOnly_ensure_of {c : Bool} : FailsOnly e (ensure c) :=
  .ite (fun _ => .ok _) fun _ => .throw broken

include range broken in
/-- Cutting literals off subtracts nothing. -/
theorem failsOnly_cutFalse_of {t : Trail} {ls : List Lit} : FailsOnly e (cutFalse t ls) := by
  induction size : ls.length using Nat.strongRecOn generalizing ls with
  | ind k ih =>
    unfold cutFalse
    cases ls with
    | nil => exact .ok _
    | cons l ls =>
        refine .bind (.bind (DenseMap.failsOnly_get_of range) fun _ _ => .ok _) fun x _ =>
          .ite (fun _ => ?_) fun _ => ?_
        · refine .bind (.bind (DenseMap.failsOnly_get_of range) fun _ _ => .ok _) fun _ _ => ?_
          refine .bind (failsOnly_ensure_of broken) fun _ _ => ?_
          split
          next last ends =>
            obtain ⟨init, rfl⟩ := List.getLast?_eq_some_iff.mp ends
            exact ih _ (by simp [← size]) rfl
          next => exact .ok _
        · exact .bind (ih ls.length (by simp [← size]) rfl) fun _ _ => .ok _

namespace Network

variable {n n' : Network} {id : ClauseId} {rows : Bool → List ClauseId}

include range broken in
/-- Whatever stands in the way of trimming a clause, its tally counts the literals that are
cut off. -/
theorem failsOnly_trimClause_of (x : View.Indexed ⟨n, n.watchers, rows⟩) :
    FailsOnly e (n.trimClause id) := by
  refine .bind (Arena.failsOnly_get_of broken) fun c read => ?_
  have stored : n.body? id = some c.body := Arena.body?_of_get read
  refine .bind (failsOnly_litValue_of range) fun _ _ => ?_
  refine .bind (failsOnly_ensure_of broken) fun _ _ => ?_
  refine .bind (failsOnly_litValue_of range) fun _ _ => ?_
  refine .bind (failsOnly_ensure_of broken) fun _ _ => ?_
  refine .bind (failsOnly_cutFalse_of range broken) fun rest _ => ?_
  refine .bind ?_ fun arena _ => failsOnly_retally ?_
  · refine .bind (Arena.failsOnly_get_of broken) fun _ _ => ?_
    refine .bind (failsOnly_ensure_of broken) fun _ _ => ?_
    exact .bind (Arena.failsOnly_set_of broken) fun _ _ => .ok _
  · have counted : c.size ≤ (n.tally c.learnt).literals := (counted_tally x stored).2
    refine .bind (.checkedSub ?_) fun _ _ => .ok _
    change c.rest.length - rest.length ≤ (n.tally c.learnt).literals
    unfold Clause.size at counted
    omega

include range broken in
/-- Whatever stands in the way of compacting the arena, it has more words than dead ones. -/
theorem failsOnly_collect_of (large : e .reportTooLarge)
    (words : n.db.arena.wasted ≤ n.db.arena.size) : FailsOnly e n.collect := by
  have live : ∀ {ls : List Lit} {t : Trail}, FailsOnly e (liveReasons n.db.arena ls t) := by
    intro ls
    induction ls with
    | nil => exact .ok _
    | cons l ls ih =>
        intro t
        unfold liveReasons
        refine .bind (.bind (DenseMap.failsOnly_get_of range) fun _ _ => .ok _) fun r _ => ?_
        split
        · refine .ite (fun _ => .bind ih fun _ _ => .ok _) fun _ => ?_
          refine .bind (.bind (DenseMap.failsOnly_get_of range) fun _ _ => .ok _) fun _ _ => ?_
          refine .bind (failsOnly_ensure_of broken) fun _ _ => .bind ?_ fun _ _ => ih
          refine .bind (DenseMap.failsOnly_get_of range) fun _ _ => ?_
          exact .bind (DenseMap.failsOnly_set_of range) fun _ _ => .ok _
        · exact ih
  have moves : ∀ {ids : List ClauseId} {b : Arena}, FailsOnly e (n.db.arena.moveAll b ids) := by
    intro ids
    induction ids with
    | nil => exact .ok _
    | cons id ids ih =>
        intro b
        refine .bind (.bind ?_ fun _ _ => .ite (fun _ => .ok _) fun _ => .ok _) fun _ _ => ih
        unfold Arena.stored
        split
        · exact .ok _
        · exact .throw broken
  refine .bind (.checkedSub words) fun _ _ => .bind (.bind (.mapM fun v _ => ?_) fun _ _ => .ok _)
    fun _ _ => .bind live fun _ _ => .bind moves fun _ _ => .ite (fun _ => .ok _)
      fun _ => .throw large
  refine .bind (DenseMap.failsOnly_get_of range) fun _ _ => ?_
  exact .bind (DenseMap.failsOnly_get_of range) fun _ _ => .ok _

end Network

end Counts

/-! ## Runs -/

namespace Solver

variable {options : Options} {allowed : Solver → Call → Prop} {calls : List Call} {s : Solver}

/-- A fresh arena has no blocks. -/
theorem laid_create {listening : Bool} {threshold : Option Severity} {outside : Outside}
    (created : create options listening threshold outside = .ok s) : s.net.db.arena.Laid := by
  unfold create at created
  split at created
  · cases created
    exact Arena.Laid.empty 0
  · cases created

/-- In every state that calls lead to, the blocks do not overlap. -/
theorem Reaches.laid (run : Reaches options allowed calls s) : s.net.db.arena.Laid := by
  induction run with
  | fresh created => exact laid_create created
  | call before _ performed ih =>
      exact View.Chain.laid (moves_of_standing before.standing performed).chain ih

/-- In every state that calls lead to, the rows name disjoint blocks of the arena, and the
counters are exact.  That remains so while further calls are carried out: at no moment does
a counter fall below zero when a clause is given up or trimmed, or when the arena is
compacted, after which no word is dead. -/
theorem Reaches.arena_accounted (run : Reaches options allowed calls s) :
    s.net.view.Accounted ∧
      (∀ {fuel c s' reply}, s.perform fuel c = .ok (s', reply) →
        s.net.view.Chain s'.net.view) ∧
      ∀ {n rows}, s.net.view.Chain ⟨n, n.watchers, rows⟩ →
        View.Accounted ⟨n, n.watchers, rows⟩ ∧
        (∀ learnt, ∀ id ∈ rows learnt, (∃ n', n.removeClause id = .ok n') ∧
          n.trimClause id ≠ .error .overflow) ∧
        n.collect ≠ .error .overflow ∧
        ∀ {n'}, n.collect = .ok n' → n'.db.arena.wasted = 0 := by
  have core : s.net.view.net.Core := run.standing.inv.net.wf.core
  have sturdy := run.sane.sturdy
  refine ⟨sturdy.indexed.accounted run.laid,
    fun performed => (moves_of_standing run.standing performed).chain,
    fun {n rows} chain => ?_⟩
  have later : View.Sturdy ⟨n, n.watchers, rows⟩ := chain.sturdy core sturdy
  have core' : n.Core := View.Chain.core chain core
  have counts := later.indexed
  have accounted := counts.accounted (chain.laid run.laid)
  have words : n.db.arena.wasted ≤ n.db.arena.size := accounted.wasted ▸ Nat.le_add_right _ _
  refine ⟨accounted, fun learnt id listed => ⟨?_, fun failed => ?_⟩, fun failed => ?_,
    fun {n'} collected => ?_⟩
  · obtain ⟨c, stored, -⟩ := (counts.listed learnt id).mp listed
    have removes : FailsOnly (fun _ => False) (n.removeClause id) :=
      Network.failsOnly_removeClause core' counts (later.ranged.clauses stored) stored
    exact removes.exists_ok
  · exact Network.failsOnly_trimClause_of (e := (· ≠ .overflow)) nofun nofun counts _ failed rfl
  · exact Network.failsOnly_collect_of (e := (· ≠ .overflow)) nofun nofun nofun words _ failed rfl
  · obtain ⟨_, _, _, _, -, -, compacted, rfl⟩ := Network.collect_eq_ok collected
    exact (Arena.words_compact compacted).2

/-- A fact satisfies one clause and makes a literal of another false for good. -/
def wornClauses : List Call :=
  [.newVar {}, .newVar {}, .newVar {}, .newVar {}, .addClause [⟨⟨0⟩, true⟩, ⟨⟨1⟩, true⟩],
    .addClause [⟨⟨1⟩, true⟩, ⟨⟨2⟩, true⟩, ⟨⟨3⟩, true⟩, ⟨⟨0⟩, false⟩],
    .addClause [⟨⟨0⟩, true⟩], .simplify]

/-- Half of the words are dead after the simplification, and none after a collection. -/
theorem worn_clauses_accounted : ∃ s n',
    Reaches { garbageFraction := 0.7 } (fun _ _ => True) wornClauses s ∧
      s.net.db.arena.size = 8 ∧ s.net.db.arena.wasted = 4 ∧ s.net.view.Accounted ∧
      s.net.collect = .ok n' ∧ n'.db.arena.wasted = 0 := by
  have found : ∃ s ∈ (create { garbageFraction := 0.7 } false none).toOption,
      ∃ s' ∈ s.playAll (fun _ _ => True) wornClauses,
        s'.net.db.arena.size = 8 ∧ s'.net.db.arena.wasted = 4 ∧
          s'.net.collect.toOption.isSome = true := by
    decide +kernel
  obtain ⟨s, run, size, wasted, collects⟩ := exists_played found
  obtain ⟨accounted, -, later⟩ := run.arena_accounted
  obtain ⟨-, -, -, clean⟩ := later (.refl : s.net.view.Chain s.net.view)
  cases collected : s.net.collect with
  | error f =>
      rw [collected] at collects
      cases collects
  | ok n' => exact ⟨s, n', run, size, wasted, accounted, collected, clean collected⟩

end Solver

end Cdcl
