import Mathlib.Logic.Relation
import Mathlib.Logic.Function.Basic
import Cdcl.Proofs.Propagating
import Cdcl.Proofs.Simplifying
import Cdcl.Proofs.Edits

/-!
# Steps of a network

Whatever a solver does to its network is a chain of small steps, and a condition that
every step keeps holds after every call.

While a watch list is walked along, it is away from the network, and while the clauses
are swept, their rows still name those that are gone.  A `View` therefore carries the
watch lists and the rows that are to be written back, next to the network: at rest they
are those of the network, `Network.view`.

* `View.Step` — the steps, each with what it changes;
* `View.Chain` — any number of them;
* `Core` — what every step needs and keeps: a well-formed trail, and clauses without
  repeated variables.
-/

namespace Cdcl

namespace Network

/-- The watchers of a literal, in their order. -/
def watchers (n : Network) (l : Lit) : List Watcher :=
  match n.watches.get l with
  | .ok ws => ws.toList
  | .error _ => []

/-- The row of learnt clauses or that of problem clauses. -/
def row (n : Network) (learnt : Bool) : List ClauseId :=
  if learnt then n.db.learnts.toList else n.db.problem.toList

/-- The tally of learnt clauses or that of problem clauses. -/
def tally (n : Network) (learnt : Bool) : Tally :=
  if learnt then n.db.learntTally else n.db.problemTally

/-- A list holds a watcher if the view does. -/
theorem lists_iff_mem_watchers {n : Network} {l : Lit} {w : Watcher} :
    n.Lists l w ↔ w ∈ n.watchers l := by
  unfold Lists watchers
  constructor
  · rintro ⟨ws, read, inside⟩
    rw [read]
    exact Array.mem_toList_iff.mpr inside
  · intro inside
    split at inside
    next ws read => exact ⟨ws, read, Array.mem_toList_iff.mp inside⟩
    next => cases inside

/-- The counters of the clauses and of the words are the same, and no clause has moved. -/
structure SameCounts (n n' : Network) : Prop where
  edits : n.db.arena.Edits n'.db.arena
  tally : ∀ learnt, n'.tally learnt = n.tally learnt
  size : n'.db.arena.size = n.db.arena.size
  wasted : n'.db.arena.wasted = n.db.arena.wasted
  places : ∀ id, n'.db.arena.place? id = n.db.arena.place? id

theorem SameCounts.refl (n : Network) : n.SameCounts n :=
  ⟨.refl, fun _ => rfl, rfl, rfl, fun _ => rfl⟩

theorem SameCounts.trans {n n' n'' : Network} (a : n.SameCounts n') (b : n'.SameCounts n'') :
    n.SameCounts n'' :=
  ⟨a.edits.trans b.edits, fun learnt => (b.tally learnt).trans (a.tally learnt),
    b.size.trans a.size, b.wasted.trans a.wasted, fun id => (b.places id).trans (a.places id)⟩

theorem SameCounts.of_eq {n n' : Network} (db : n'.db = n.db) : n.SameCounts n' := by
  refine ⟨db ▸ .refl, fun learnt => ?_, ?_, ?_, fun id => ?_⟩ <;> simp only [Network.tally, db]

/-- Only bookkeeping differs: activities, messages, the head of the queue, and what a
view carries by itself. -/
structure Steady (n n' : Network) : Prop where
  values : n'.trail.values = n.trail.values
  origins : n'.trail.origins = n.trail.origins
  lits : n'.trail.lits = n.trail.lits
  marks : n'.trail.marks = n.trail.marks
  head : n.trail.head ≤ n.trail.lits.size → n'.trail.head ≤ n'.trail.lits.size
  watches : n'.watches.size = n.watches.size
  body : ∀ id, n'.body? id = n.body? id
  slots : n'.db.arena.slots.size = n.db.arena.slots.size
  counts : n.SameCounts n'

/-- A clause has been given up, and it is no longer the reason of anything. -/
structure Drops (n : Network) (id : ClauseId) (c : Clause) (n' : Network) : Prop
    extends n.Removes id n' where
  edits : n.db.arena.Edits n'.db.arena
  stored : n.body? id = some c
  root : n.trail.level = 0 ∨ (n'.trail = n.trail ∧ c.learnt = true)
  needless : c.learnt = true ∨ ∃ y ∈ c.lits, y ∈ n.trail.upTo 0
  released : ∀ l ∈ n.trail.lits, c.first = l → n'.trail.reasonOf l.var ≠ .ok (.clause id)
  reasons : ∀ l ∈ n.trail.lits, ∀ r, r ≠ .clause id → n.trail.reasonOf l.var = .ok r →
    n'.trail.reasonOf l.var = .ok r
  words : n'.db.arena.size = n.db.arena.size
  wasted : n'.db.arena.wasted = n.db.arena.wasted + c.words
  places : ∀ j, j ≠ id → n'.db.arena.place? j = n.db.arena.place? j
  tally : ∀ learnt, n.tally learnt =
    if learnt = c.learnt then (n'.tally learnt).add c.size else n'.tally learnt

/-- Literals that are false at the root level have been cut off a clause. -/
structure Trims (n : Network) (id : ClauseId) (c : Clause) (rest : List Lit) (n' : Network) :
    Prop where
  edits : n.db.arena.Edits n'.db.arena
  root : n.trail.level = 0
  trail : n'.trail = n.trail
  watches : n'.watches = n.watches
  slots : n'.db.arena.slots.size = n.db.arena.slots.size
  stored : n.body? id = some c
  body : ∀ j, n'.body? j = if j = id then some { c with rest } else n.body? j
  trimmed : Trimmed (n.trail.upTo 0) c { c with rest }
  shorter : rest.length ≤ c.rest.length
  words : n'.db.arena.size = n.db.arena.size
  wasted : n'.db.arena.wasted = n.db.arena.wasted + (c.rest.length - rest.length)
  places : ∀ j, n'.db.arena.place? j = n.db.arena.place? j
  tally : ∀ learnt, n.tally learnt =
    if learnt = c.learnt then
      { n'.tally learnt with
        literals := (n'.tally learnt).literals + (c.rest.length - rest.length) }
    else n'.tally learnt

/-- The clauses that are watched, or the reason of something, have been moved together;
the others are lost. -/
structure Compacts (n : Network) (lists : Lit → List Watcher) (n' : Network) : Prop where
  edits : n.db.arena.Edits n'.db.arena
  trail : n.trail.Forgets n'.trail
  reasons : ∀ l ∈ n.trail.lits, ∀ r, (∀ id, r = .clause id → ∃ c, n.body? id = some c) →
    n.trail.reasonOf l.var = .ok r → n'.trail.reasonOf l.var = .ok r
  watches : n'.watches = n.watches
  slots : n'.db.arena.slots.size = n.db.arena.slots.size
  kept : ∀ {id c}, n'.body? id = some c → n.body? id = some c
  watched : ∀ {id c l w}, n.body? id = some c → w ∈ lists l → w.clause = id →
    n'.body? id = some c
  tally : ∀ learnt, n'.tally learnt = n.tally learnt
  words : n'.db.arena.size = n'.db.arena.total Clause.words
  wasted : n'.db.arena.wasted = 0

end Network

open Network (SameCounts Steady Drops Trims Compacts)

/-- A network, with the watch lists and the rows that belong to it. -/
structure View where
  net : Network
  lists : Lit → List Watcher
  rows : Bool → List ClauseId

/-- A network at rest. -/
def Network.view (n : Network) : View := ⟨n, n.watchers, n.row⟩

namespace View

/-- A clause joins the lists of the negations of its first two literals. -/
def post (lists : Lit → List Watcher) (id : ClauseId) (c : Clause) (l : Lit) : List Watcher :=
  lists l ++ (if l = -c.first then [⟨id, c.second⟩] else []) ++
    (if l = -c.second then [⟨id, c.first⟩] else [])

/-- A clause leaves those lists. -/
def unpost (lists : Lit → List Watcher) (id : ClauseId) (c : Clause) (l : Lit) : List Watcher :=
  if l = -c.first ∨ l = -c.second then (lists l).eraseP (·.clause = id) else lists l

/-- One step. -/
inductive Step (v : View) : View → Prop
  /-- Nothing that matters changes. -/
  | steady {n : Network} : v.net.Steady n → Step v ⟨n, v.lists, v.rows⟩
  /-- The rows are put into another order. -/
  | reorder {rows : Bool → List ClauseId} : (∀ learnt, (rows learnt).Perm (v.rows learnt)) →
      Step v ⟨v.net, v.lists, rows⟩
  /-- The watched literals of a clause are exchanged, and a watcher gets a new blocker. -/
  | turn {n : Network} {c c' : Clause} {p : Lit} {w : Watcher} {b : Lit}
      {before after : List Watcher} :
      v.net.Turned p w.clause c c' n → v.net.SameCounts n → p ∈ v.net.trail.lits →
      v.lists p = before ++ w :: after → b ∈ c'.lits →
      Step v ⟨n, Function.update v.lists p (before ++ ⟨w.clause, b⟩ :: after), v.rows⟩
  /-- A watcher goes to the list of another literal of its clause. -/
  | move {n : Network} {c c' : Clause} {p : Lit} {w : Watcher} {before after : List Watcher} :
      v.net.Rearranged w.clause c c' n → v.net.SameCounts n → c'.first ≠ -p → c'.second ≠ -p →
      (c'.first = c.first ∨ c'.first = c.second) → v.lists p = before ++ w :: after →
      Step v ⟨n, Function.update (Function.update v.lists p (before ++ after)) (-c'.second)
        (v.lists (-c'.second) ++ [⟨w.clause, c'.first⟩]), v.rows⟩
  /-- A clause implies its first literal. -/
  | imply {n : Network} {id : ClauseId} {c : Clause} :
      v.net.body? id = some c → v.net.Enqueued c.first (Network.reasonFrom id c) n →
      Step v ⟨n, v.lists, v.rows⟩
  /-- A literal is assigned without a reason, at the root level or as the first one of its
  level. -/
  | lead {n : Network} {p : Lit} :
      v.net.trail.level = 0 ∨ v.net.trail.marks.back? = some v.net.trail.lits.size →
      v.net.Enqueued p .decision n → Step v ⟨n, v.lists, v.rows⟩
  /-- A level begins. -/
  | openLevel : Step v ⟨v.net.openLevel, v.lists, v.rows⟩
  /-- Levels are undone. -/
  | back {n : Network} {k : Nat} : v.net.BackedTo k n → Step v ⟨n, v.lists, v.rows⟩
  /-- A clause is stored. -/
  | store {n : Network} {id : ClauseId} {c : Clause} :
      v.net.Stores id c n → v.net.db.arena.Edits n.db.arena → (c.lits.map Lit.var).Nodup →
      (∀ l ∈ c.lits, l.var.index < v.net.trail.numVars) →
      (∀ learnt, n.tally learnt =
        if learnt = c.learnt then (v.net.tally learnt).add c.size else v.net.tally learnt) →
      n.db.arena.size = v.net.db.arena.size + c.words →
      n.db.arena.wasted = v.net.db.arena.wasted →
      (∀ j, n.db.arena.place? j =
        if j = id then some v.net.db.arena.size else v.net.db.arena.place? j) →
      Step v ⟨n, post v.lists id c,
        fun learnt => if learnt = c.learnt then v.rows learnt ++ [id] else v.rows learnt⟩
  /-- A clause is given up. -/
  | drop {n : Network} {id : ClauseId} {c : Clause} {learnt : Bool}
      {before after : List ClauseId} :
      v.net.Drops id c n → v.rows learnt = before ++ id :: after →
      Step v ⟨n, unpost v.lists id c, Function.update v.rows learnt (before ++ after)⟩
  /-- A clause is trimmed. -/
  | trim {n : Network} {id : ClauseId} {c : Clause} {rest : List Lit} :
      v.net.Trims id c rest n → Step v ⟨n, v.lists, v.rows⟩
  /-- The arena is compacted. -/
  | compact {n : Network} : v.net.Compacts v.lists n → Step v ⟨n, v.lists, v.rows⟩
  /-- A variable is added. -/
  | addVar {x : Var} {observed : Bool} : x.index = v.net.trail.numVars →
      Step v ⟨v.net.addVar x observed, v.lists, v.rows⟩

/-- Any number of steps. -/
abbrev Chain : View → View → Prop := Relation.ReflTransGen Step

end View

/-! ## What every step keeps -/

/-- The trail is well-formed, and no clause has a variable twice. -/
structure Network.Core (n : Network) : Prop where
  trail : n.trail.WF
  distinct : ∀ {id c}, n.body? id = some c → (c.lits.map Lit.var).Nodup

namespace Network

variable {n n' : Network}

theorem WF.core {lists : Lit → Watcher → Prop} (w : n.WF lists) : n.Core :=
  ⟨w.trail, w.distinct⟩

theorem Core.of_body (c : n.Core) (trail : n'.trail.WF)
    (body : ∀ {id b}, n'.body? id = some b → n.body? id = some b) : n'.Core :=
  ⟨trail, fun stored => c.distinct (body stored)⟩

theorem Steady.wf (s : n.Steady n') (w : n.trail.WF) : n'.trail.WF where
  sizes := by rw [s.origins, s.values, w.sizes]
  held {v b} := by rw [s.values, s.lits]; exact w.held
  once := by rw [s.lits]; exact w.once
  level {i l o} here origin k := by
    rw [s.lits] at here
    rw [s.origins] at origin
    unfold Trail.cut
    rw [s.marks, s.lits]
    exact w.level here origin k
  sorted {j k} le := by
    unfold Trail.cut
    rw [s.marks, s.lits]
    exact w.sorted le
  head := s.head w.head

theorem Rearranged.core {id : ClauseId} {c c' : Clause} (r : n.Rearranged id c c' n')
    (core : n.Core) : n'.Core := by
  refine ⟨r.trail ▸ core.trail, fun {j b} stored => ?_⟩
  rcases r.body_cases stored with ⟨-, rfl⟩ | old
  · exact (r.perm.map Lit.var).nodup_iff.mpr (core.distinct r.stored)
  · exact core.distinct old

end Network

/-- Each step keeps the core. -/
theorem View.Step.core {v v' : View} (h : v.Step v') (core : v.net.Core) : v'.net.Core := by
  cases h with
  | steady s => exact core.of_body (s.wf core.trail) fun stored => s.body _ ▸ stored
  | reorder => exact core
  | turn t => exact t.core core
  | move r => exact r.core core
  | imply _ e => exact core.of_body (core.trail.push e.trail) fun stored => e.body _ ▸ stored
  | lead _ e => exact core.of_body (core.trail.push e.trail) fun stored => e.body _ ▸ stored
  | openLevel => exact core.of_body core.trail.openLevel id
  | back b => exact core.of_body (b.trail.wf core.trail) fun stored => b.body _ ▸ stored
  | store s _ distinct =>
      refine ⟨s.trail ▸ core.trail, fun stored => ?_⟩
      rcases s.body_cases stored with ⟨-, rfl⟩ | old
      · exact distinct
      · exact core.distinct old
  | drop d =>
      refine core.of_body (d.trail.wf core.trail) fun stored => ?_
      rw [d.body] at stored
      split at stored
      · cases stored
      · exact stored
  | trim t =>
      refine ⟨t.trail ▸ core.trail, fun stored => ?_⟩
      rw [t.body] at stored
      split at stored
      · cases stored
        exact t.trimmed.distinct (core.distinct t.stored)
      · exact core.distinct stored
  | compact c => exact core.of_body (c.trail.wf core.trail) c.kept
  | addVar fresh => exact core.of_body (core.trail.addVar fresh) id

/-- The core is kept along a chain. -/
theorem View.Chain.core {v v' : View} (h : v.Chain v') (core : v.net.Core) : v'.net.Core := by
  induction h with
  | refl => exact core
  | tail _ step ih => exact step.core ih

/-- What every step keeps is kept by a chain. -/
theorem View.Chain.invariant {holds : View → Prop}
    (kept : ∀ {v v' : View}, v.Step v' → v.net.Core → holds v → holds v')
    {v v' : View} (h : v.Chain v') (core : v.net.Core) (start : holds v) : holds v' := by
  induction h with
  | refl => exact start
  | tail before step ih => exact kept step (View.Chain.core before core) ih

end Cdcl
