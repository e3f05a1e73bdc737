import Cdcl.Proofs.Forwarding
import Cdcl.Proofs.Watching

/-!
# The memory of a solver

The words of the arena are never made up anew.  Beginning with none, a memory that is written
to as the clauses are stored, rewritten, cut, given up and moved has them all the time.

* `Memory.Change` — one write, or the move into a new memory; `Memory.Changes` — any number;
* `Edit.changes` — an operation on the arena is carried out by changes of the memory;
* `Reaches.memory_kept` — in every state that calls lead to, what is read at the places of
  the clauses that are listed are those clauses.
-/

namespace Cdcl

/-- What is done to a memory at one go. -/
inductive Memory.Change (m : Memory) : Memory → Prop
  | store {lits : List Lit} {learnt : Bool} {m' : Memory} {r : Ref} :
      m.store lits learnt = .ok (m', r) → Change m m'
  | literals {r : Ref} {i : Nat} {lits : List Lit} {m' : Memory} :
      m.writeLits r i lits = .ok m' → Change m m'
  | activity {r : Ref} {x : Float32} {m' : Memory} :
      m.writeActivity r x = .ok m' → Change m m'
  | cut {r : Ref} {size : Nat} {m' : Memory} : m.cut r size = .ok m' → Change m m'
  | discard {r : Ref} {m' : Memory} : m.discard r = .ok m' → Change m m'
  /-- References are followed into a new memory. -/
  | move {refs refs' : List Ref} {new : List Word} :
      relocateAll m.words [] refs = .ok (new, refs') → Change m ⟨new, 0⟩

/-- Any number of changes. -/
abbrev Memory.Changes : Memory → Memory → Prop := Relation.ReflTransGen Memory.Change

namespace Arena

variable {a b : Arena} {m : Memory}

/-- Compacting the arena follows the references to its clauses. -/
theorem Keeps.compact {order : List ClauseId} (laid : a.Laid) (k : a.Keeps m)
    (h : a.compact order = .ok b) : ∃ new,
      relocateAll m.words [] (order.map a.placeOf) = .ok (new, order.map b.placeOf) ∧
        b.Keeps ⟨new, 0⟩ := by
  obtain ⟨new, followed, holds⟩ := relocateAll_eq laid k.holds h
  obtain ⟨-, clauses⟩ := clause?_compact h
  refine ⟨new, followed, holds, (words_compact h).2.symm, fun {id s} there => ?_⟩
  have stored : b.clause? id = some s.clause := by rw [clause?, there]; rfl
  rw [clauses] at stored
  split at stored
  · obtain ⟨t, here, same⟩ := Option.map_eq_some_iff.mp stored
    exact same ▸ k.fits here
  · cases stored

/-- An operation on the arena is carried out on the words. -/
theorem Edit.changes (e : a.Edit b) (laid : a.Laid) (k : a.Keeps m) :
    ∃ m', m.Changes m' ∧ b.Keeps m' := by
  cases e with
  | @write id c d read written size learnt =>
      obtain ⟨m₁, m', literals, activity, kept⟩ := k.write laid read written size learnt
      refine ⟨m', ?_, kept⟩
      split at activity
      · exact .tail (.single (.literals literals)) (.activity activity)
      · cases activity
        exact .single (.literals literals)
  | alloc unused allocated =>
      obtain ⟨m', stored, kept⟩ := k.alloc unused allocated
      exact ⟨m', .single (.store stored), kept⟩
  | free freed =>
      obtain ⟨m', discarded, kept⟩ := k.free laid freed
      exact ⟨m', .single (.discard discarded), kept⟩
  | shrink shrunk =>
      obtain ⟨m₁, m', literals, cut, kept⟩ := k.shrink laid shrunk
      exact ⟨m', .tail (.single (.literals literals)) (.cut cut), kept⟩
  | compact compacted =>
      obtain ⟨new, followed, kept⟩ := k.compact laid compacted
      exact ⟨⟨new, 0⟩, .single (.move followed), kept⟩

theorem Edits.changes (e : a.Edits b) (laid : a.Laid) (k : a.Keeps m) :
    ∃ m', m.Changes m' ∧ b.Keeps m' := by
  induction e with
  | refl => exact ⟨m, .refl, k⟩
  | tail before edit ih =>
      obtain ⟨m₁, changes, kept⟩ := ih
      obtain ⟨m', more, kept'⟩ := edit.changes (Edits.laid before laid) kept
      exact ⟨m', changes.trans more, kept'⟩

end Arena

namespace Solver

variable {options : Options} {allowed : Solver → Call → Prop} {calls : List Call} {s : Solver}

/-- A call is carried out on the words. -/
theorem Reaches.changes {fuel : Nat} {c : Call} {s' : Solver} {reply : Reply} {m : Memory}
    (run : Reaches options allowed calls s) (kept : s.net.db.arena.Keeps m)
    (h : s.perform fuel c = .ok (s', reply)) :
    ∃ m', m.Changes m' ∧ s'.net.db.arena.Keeps m' :=
  (moves_of_standing run.standing h).chain.edits.changes run.laid kept

/-- A memory that was empty in the beginning keeps the arena along every run. -/
theorem Reaches.exists_keeps (run : Reaches options allowed calls s) :
    ∃ m, Memory.empty.Changes m ∧ s.net.db.arena.Keeps m := by
  induction run with
  | fresh created =>
      refine ⟨.empty, .refl, ?_⟩
      unfold create at created
      split at created
      · cases created
        exact .empty
      · cases created
  | call before _ performed ih =>
      obtain ⟨m, changes, kept⟩ := ih
      obtain ⟨m', more, kept'⟩ := before.changes kept performed
      exact ⟨m', changes.trans more, kept'⟩

/-- In every state that calls lead to, the rows name clauses whose words stand in a memory that
was written to all along, and remain there while further calls are carried out: at the place
of each of them there is a header that is neither marked nor relocated and that says its kind
and its size, then its literals, and then, if it is learnt, its activity. -/
theorem Reaches.memory_kept (run : Reaches options allowed calls s) :
    ∃ m, Memory.empty.Changes m ∧ s.net.db.arena.Keeps m ∧
      (∀ learnt, ∀ id ∈ s.net.row learnt, ∃ c, s.net.clause id = .ok c ∧
        headerAt m.words (s.net.db.arena.placeOf id) = .ok {
          mark := 0, learnt, hasExtra := learnt, relocated := false, size := c.lits.length } ∧
        m.read (s.net.db.arena.placeOf id) =
          .ok (c.lits, if learnt then some c.activity else none)) ∧
      ∀ {fuel c s' reply}, s.perform fuel c = .ok (s', reply) →
        ∃ m', m.Changes m' ∧ s'.net.db.arena.Keeps m' := by
  obtain ⟨m, changes, kept⟩ := run.exists_keeps
  refine ⟨m, changes, kept, fun learnt id listed => ?_, fun performed => run.changes kept performed⟩
  obtain ⟨c, read, rfl⟩ := (Network.mem_row run.sane.sturdy.indexed learnt).mp listed
  obtain ⟨t, here, rfl⟩ := Arena.get_eq_ok.mp read
  have stands := kept.holds.stands here
  refine ⟨t.clause, read, ?_, ?_⟩
  · rw [Arena.placeOf_eq here, stands.header]
    rfl
  · rw [Arena.placeOf_eq here]
    exact stands.read

end Solver

end Cdcl
