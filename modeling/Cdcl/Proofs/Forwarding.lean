import Cdcl.Proofs.Accounts
import Cdcl.Proofs.Words

/-!
# Forwarding addresses

A memory that holds the words of the arena moves a clause by copying its words to the end of
a new memory, and writes the new address over the first literal, where the other references
to the clause will find it.  So references are followed while the old memory is being
overwritten; still each of them leads to the one copy of its clause, and every word is copied
as it was.

* `relocate`, `relocateAll` — following references;
* `relocateAll_eq` — following the references of the clauses in an order comes to the same
  as compacting the arena in that order;
* `Reaches.collect_forwards` — so it is with the references of a solver.
-/

namespace Cdcl

/-! ## Relocation -/

/-- The address that the clause at an address has left. -/
def addressAt (m : List Word) (r : Ref) : Except Fault Ref :=
  match m[r.offset + 1]? with
  | some (.address new) => .ok new
  | _ => .error .conditionBroken

/-- Marks the clause at an address as gone, and leaves its new address. -/
def leave (m : List Word) (r : Ref) (h : Header) (new : Ref) : List Word :=
  (m.set r.offset (.header (h.setRelocated true))).set (r.offset + 1) (.address new)

/-- Follows a reference into the old memory: copies its clause behind the new one, unless
that has been done.  Answers with both memories and the new reference. -/
def relocate (m new : List Word) (r : Ref) : Except Fault (List Word × List Word × Ref) := do
  let h ← headerAt m r
  if h.relocated then
    return (m, new, ← addressAt m r)
  else
    let words := (m.drop r.offset).take h.words
    return (leave m r h ⟨new.length⟩, new ++ words, ⟨new.length⟩)

/-- Follows references one after the other.  Answers with the new memory and the new
references. -/
def relocateAll (m new : List Word) : List Ref → Except Fault (List Word × List Ref)
  | [] => .ok (new, [])
  | r :: rs => do
      let (m, new, r) ← relocate m new r
      let (new, rs) ← relocateAll m new rs
      return (new, r :: rs)

section

variable {m : List Word} {r q new : Ref} {h : Header}

theorem headerAt_leave (inside : r.offset < m.length) :
    headerAt (leave m r h new) r = .ok (h.setRelocated true) := by
  simp [headerAt, leave, inside]

theorem addressAt_leave (inside : r.offset + 1 < m.length) :
    addressAt (leave m r h new) r = .ok new := by
  simp [addressAt, leave, inside]

theorem headerAt_leave_of_ne (other : q.offset ≠ r.offset) (next : q.offset ≠ r.offset + 1) :
    headerAt (leave m r h new) q = headerAt m q := by
  simp [headerAt, leave, other.symm, next.symm]

theorem addressAt_leave_of_ne (other : q.offset + 1 ≠ r.offset) (next : q.offset ≠ r.offset) :
    addressAt (leave m r h new) q = addressAt m q := by
  simp [addressAt, leave, other.symm, next.symm]

end

namespace Arena

variable {a b b' : Arena} {m new : List Word} {id : ClauseId} {s : Stored}

/-! ## Compacting -/

/-- The old memory while clauses are moved from `a` to `b`: a clause that has been moved has
left its new address, and every other clause stands as it was. -/
structure Forwards (a b : Arena) (m : List Word) : Prop where
  waits : ∀ {id s}, a.find? id = some s → b.find? id = none → Stands m s
  moved : ∀ {id s t}, a.find? id = some s → b.find? id = some t →
    headerAt m s.place = .ok (s.clause.header.setRelocated true) ∧
      addressAt m s.place = .ok t.place

/-- What has been left at the place of one clause is not in the way of the others. -/
theorem Forwards.leave (f : Forwards a b m) (laid : a.Laid) (here : a.find? id = some s)
    (absent : b.find? id = none) (moved : Appends s id b b') :
    Forwards a b' (leave m s.place s.clause.header ⟨b.size⟩) := by
  have inside := (f.waits here absent).inside
  have long := s.clause.two_lt_words
  constructor
  · intro j t there waiting
    rw [moved.found] at waiting
    split at waiting
    next => cases waiting
    next other =>
      have apart := laid.apart_of_find? (Ne.symm other) here there
      have := t.clause.two_lt_words
      refine ((f.waits there waiting).set ?_).set ?_
      · omega
      · omega
  · intro j t u there gone
    rw [moved.found] at gone
    split at gone
    next same =>
      cases gone
      cases here.symm.trans (same ▸ there)
      exact ⟨headerAt_leave (by omega), addressAt_leave (by omega)⟩
    next other =>
      have apart := laid.apart_of_find? (Ne.symm other) here there
      have := t.clause.two_lt_words
      obtain ⟨header, address⟩ := f.moved there gone
      rw [headerAt_leave_of_ne (by omega) (by omega), addressAt_leave_of_ne (by omega) (by omega)]
      exact ⟨header, address⟩

/-- One reference is followed. -/
theorem relocate_eq (laid : a.Laid) (slots : b.slots.size = a.slots.size) (f : Forwards a b m)
    (held : b.Holds new) (h : a.move b id = .ok b') : ∃ m' new',
      relocate m new (a.placeOf id) = .ok (m', new', b'.placeOf id) ∧
        b'.slots.size = a.slots.size ∧ Forwards a b' m' ∧ b'.Holds new' ∧
        (∃ t, b'.find? id = some t) ∧ ∀ {j t}, b.find? j = some t → b'.find? j = some t := by
  obtain ⟨s, here, slots', ⟨rfl, t, there⟩ | ⟨absent, moved⟩⟩ := move_eq_ok slots h
  · obtain ⟨header, address⟩ := f.moved here there
    refine ⟨m, new, ?_, slots', f, held, ⟨t, there⟩, fun found => found⟩
    rw [placeOf_eq here, placeOf_eq there]
    refine bind_eq_ok.mpr ⟨_, header, ?_⟩
    exact bind_eq_ok.mpr ⟨_, address, rfl⟩
  · have stands := f.waits here absent
    have arrived : b'.find? id = some { s with place := ⟨b.size⟩ } := by
      rw [moved.found, if_pos rfl]
    refine ⟨Cdcl.leave m s.place s.clause.header ⟨b.size⟩, new ++ s.clause.block, ?_, slots',
      f.leave laid here absent moved, held.append moved, ⟨_, arrived⟩, fun {j t} old => ?_⟩
    · rw [placeOf_eq here, placeOf_eq arrived, ← held.size]
      refine bind_eq_ok.mpr ⟨_, stands.header, ?_⟩
      have words : (m.drop s.place.offset).take s.clause.words = s.clause.block := stands
      rw [← words]
      rfl
    · rw [moved.found]
      split
      next same => cases (same ▸ absent).symm.trans old
      next => exact old

/-- References are followed one after the other. -/
theorem relocateAll_moved {ids : List ClauseId} (laid : a.Laid)
    (slots : b.slots.size = a.slots.size) (f : Forwards a b m) (held : b.Holds new)
    (h : a.moveAll b ids = .ok b') : ∃ new',
      relocateAll m new (ids.map a.placeOf) = .ok (new', ids.map b'.placeOf) ∧ b'.Holds new' ∧
        ∀ {j t}, b.find? j = some t → b'.find? j = some t := by
  induction ids generalizing b m new with
  | nil =>
      cases h
      exact ⟨new, rfl, held, fun found => found⟩
  | cons id ids ih =>
      obtain ⟨b₁, moved, h⟩ := bind_eq_ok.mp h
      obtain ⟨m₁, new₁, followed, slots₁, f₁, held₁, ⟨t, arrived⟩, kept⟩ :=
        relocate_eq laid slots f held moved
      obtain ⟨new', rest, held', kept'⟩ := ih slots₁ f₁ held₁ h
      refine ⟨new', bind_eq_ok.mpr ⟨_, followed, bind_eq_ok.mpr ⟨_, rest, ?_⟩⟩, held',
        fun found => kept' (kept found)⟩
      rw [List.map_cons, placeOf_eq arrived, placeOf_eq (kept' arrived)]
      rfl

/-- Following the references of clauses into a memory that holds the arena comes to the same
as compacting the arena: each of them leads to where its clause stands in the new one. -/
theorem relocateAll_eq {order : List ClauseId} (laid : a.Laid) (held : a.Holds m)
    (h : a.compact order = .ok b) : ∃ new,
      relocateAll m [] (order.map a.placeOf) = .ok (new, order.map b.placeOf) ∧ b.Holds new := by
  have nothing : ∀ j, find? ⟨Array.replicate a.slots.size none, 0, 0⟩ j = none := fun j =>
    Option.map_eq_none_iff.mp (a.agrees_empty.2 j)
  have f : Forwards a ⟨Array.replicate a.slots.size none, 0, 0⟩ m :=
    ⟨fun here _ => held.stands here, fun _ there => by simp [nothing] at there⟩
  have nowhere : Holds ⟨Array.replicate a.slots.size none, 0, 0⟩ [] :=
    ⟨rfl, fun found => by simp [nothing] at found⟩
  obtain ⟨new, followed, held', -⟩ := relocateAll_moved laid (by simp) f nowhere h
  exact ⟨new, followed, held'⟩

end Arena

/-- In every state that calls lead to, compacting the arena follows the references of the
watchers, of the reasons and of both rows. -/
theorem Solver.Reaches.collect_forwards {options : Options} {allowed : Solver → Call → Prop}
    {calls : List Call} {s : Solver} {n : Network} {m : List Word}
    (run : Reaches options allowed calls s) (held : s.net.db.arena.Holds m)
    (h : s.net.collect = .ok n) : ∃ watched trail reasons new,
      s.net.watchedOrder = .ok watched ∧
        Network.liveReasons s.net.db.arena s.net.trail.lits.toList s.net.trail =
          .ok (trail, reasons) ∧
        let ids := watched ++ reasons ++ s.net.db.learnts.toList ++ s.net.db.problem.toList
        relocateAll m [] (ids.map s.net.db.arena.placeOf) =
            .ok (new, ids.map n.db.arena.placeOf) ∧
          n.db.arena.Holds new := by
  obtain ⟨watched, trail, reasons, arena, ordered, live, compacted, rfl⟩ :=
    Network.collect_eq_ok h
  obtain ⟨new, followed, held'⟩ := Arena.relocateAll_eq run.laid held compacted
  exact ⟨watched, trail, reasons, new, ordered, live, followed, held'⟩

end Cdcl
