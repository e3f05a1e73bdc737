import Cdcl.Proofs.Moving

/-!
# Where a clause that is added above the root level leaves the solver

A clause of two literals or more is stored at once, or after some levels have been undone,
and then its first literal may become true.

* `Move` — what becomes of the levels and the trail;
* `Network.Gains` — the problem clauses are those from before, and the new one comes last;
* `Lands` — where going back leads;
* `insertArranged_inserts` — the move and the clause together;
* `Reaches.added` — a clause that is added in a run.
-/

namespace Cdcl

namespace Network

variable {n n' m m' : Network} {c : List Lit}

/-- The clause has been put behind the other problem clauses, under the next name. -/
structure Gains (n : Network) (c : List Lit) (n' : Network) : Prop where
  row : n'.row false = n.row false ++ [⟨n.db.arena.slots.size⟩]
  body : ∃ b : Clause, b.lits = c ∧ b.learnt = false ∧
    ∀ j, n'.body? j = if j = ⟨n.db.arena.slots.size⟩ then some b else n.body? j

/-- A clause that is added is stored, and nothing else is changed by that. -/
theorem gains_addClause {id : ClauseId} (h : n.addClause c false = .ok (n', id)) :
    n.Gains c n' := by
  obtain ⟨b, lits, learnt, stores⟩ := stores h
  have name : id = ⟨n.db.arena.slots.size⟩ := congrArg ClauseId.mk stores.name
  refine ⟨?_, b, lits, learnt, name ▸ stores.body⟩
  rw [row_addClause h, name]
  exact if_pos rfl

/-- Only the stored clauses matter. -/
theorem Gains.congr (gains : n.Gains c n') (before : n.db = m.db) (after : m'.db = n'.db) :
    m.Gains c m' := by
  obtain ⟨row, b, lits, learnt, body⟩ := gains
  simp only [Network.row, body?, before, ← after] at row body
  exact ⟨row, b, lits, learnt, body⟩

end Network

namespace Solver

variable {s s₁ s' : Solver} {t : Trail} {k : Nat} {l : Lit} {c d : List Lit}
  {a b : Ranked} {rest : List Ranked}

/-- What the solver does with its levels when it stores a clause above the root level. -/
inductive Move where
  | stay
  /-- It goes back to the end of a level. -/
  | retreat (level : Nat)
  /-- It goes back to the end of a level and makes a literal true there. -/
  | imply (l : Lit) (level : Nat)
deriving DecidableEq, Repr

/-- The move for a clause with the given first literal. -/
def Retreat.move (l : Lit) : Retreat → Move
  | .stay => .stay
  | .below m => .retreat (m - 1)
  | .assertAt k => .imply l k

theorem Retreat.move_eq_imply {r : Retreat} {p : Lit} (h : r.move l = .imply p k) :
    r = .assertAt k ∧ p = l := by
  cases r with
  | assertAt j =>
      cases h
      exact ⟨rfl, rfl⟩
  | stay => cases h
  | below m => cases h

/-- The move has been made. -/
def Makes (s s' : Solver) : Move → Prop
  | .stay => s'.net.trail = s.net.trail
  | .retreat k => s'.level = k ∧ s'.net.trail.lits.toList = s.net.trail.upTo k
  | .imply l k => s'.level = k ∧ s'.net.trail.lits.toList = s.net.trail.upTo k ++ [l] ∧
      s'.net.trail.levelOf l.var = .ok k

/-- A clause has been stored with a move. -/
structure Inserts (s : Solver) (c : List Lit) (m : Move) (s' : Solver) : Prop where
  makes : s.Makes s' m
  below : ∀ j, j < s'.level → s'.net.trail.upTo j = s.net.trail.upTo j
  ok : s'.ok = s.ok
  gains : s.net.Gains c s'.net

/-- What has been told does not matter. -/
theorem Inserts.told {m : Move} {j : Message} (h : (s.log j).Inserts c m s') : s.Inserts c m s' := by
  obtain ⟨makes, below, ok, gains⟩ := h
  refine ⟨?_, below, ok, gains.congr rfl rfl⟩
  cases m <;> exact makes

/-- The facts of the root level stay, unless the literal that is implied becomes one. -/
theorem Inserts.root {m : Move} (h : s.Inserts c m s') (above : ∀ l k, m = .imply l k → 0 < k) :
    s'.proved = s.proved := by
  unfold proved
  rw [Trail.root_eq, Trail.root_eq]
  by_cases high : 0 < s'.level
  · exact h.below 0 high
  have root : s'.net.trail.level ≤ 0 := Nat.not_lt.mp high
  have makes := h.makes
  cases m with
  | stay => rw [show s'.net.trail = s.net.trail from makes]
  | retreat k =>
      obtain ⟨level, lits⟩ := makes
      have zero : k = 0 := level ▸ Nat.le_zero.mp root
      rw [Trail.upTo_of_le root, lits, zero]
  | imply l k =>
      have level : s'.level = k := makes.1
      exact absurd (level ▸ above l k rfl) high

/-! ## Going back -/

/-- The solver has gone back to the end of a level. -/
structure Lands (s : Solver) (k : Nat) (s' : Solver) : Prop where
  wf : s'.net.trail.WF
  level : s'.level = k
  lits : s'.net.trail.lits.toList = s.net.trail.upTo k
  upTo : ∀ j, j ≤ k → s'.net.trail.upTo j = s.net.trail.upTo j
  db : s'.net.db = s.net.db
  ok : s'.ok = s.ok
  vars : s'.numVars = s.numVars

/-- Going back lands at the level that is called for. -/
theorem lands_cancelUntil (w : s.net.trail.WF) (covers : s.order.Covers s.net.trail none)
    (low : k ≤ s.level) (h : s.cancelUntil k = .ok s') : s.Lands k s' := by
  rcases cancelUntil_cases w covers h with ⟨high, rfl⟩ | ⟨-, back⟩
  · exact ⟨w, Nat.le_antisymm high low, (Trail.upTo_of_le high).symm, fun _ _ => rfl, rfl, rfl, rfl⟩
  · refine ⟨back.net.trail.wf w, back.level, back.net.trail.lits, fun j under => ?_, back.net.db,
      back.ok, back.net.trail.sizes⟩
    rw [back.net.trail.upTo w, Nat.min_eq_left under]

theorem Lands.mem (r : s.Lands k s') : l ∈ s'.net.trail.lits ↔ l ∈ s.net.trail.upTo k := by
  rw [← Array.mem_toList_iff, r.lits]

/-- A clause that is added after going back, and that implies nothing there. -/
theorem Lands.retreats {n : Network} {id : ClauseId} (r : s.Lands k s₁)
    (added : s₁.net.addClause d false = .ok (n, id)) :
    s.Inserts d (.retreat k) { s₁ with net := n } := by
  obtain ⟨_, _, _, stores⟩ := Network.stores added
  have gains := (Network.gains_addClause added).congr r.db rfl
  have level : n.trail.level = k := (congrArg Trail.level stores.trail).trans r.level
  refine ⟨⟨level, (congrArg (·.lits.toList) stores.trail).trans r.lits⟩, fun j under => ?_, r.ok,
    gains⟩
  have under : j < k := level ▸ under
  exact (congrArg (·.upTo j) stores.trail).trans (r.upTo j (Nat.le_of_lt under))

/-- A clause that is added after going back, and that implies a literal there. -/
theorem Lands.implies {n₁ n : Network} {id : ClauseId} {why : Reason} (r : s.Lands k s₁)
    (added : s₁.net.addClause d false = .ok (n₁, id)) (assigned : n₁.enqueue l why = .ok n) :
    s.Inserts d (.imply l k) { s₁ with net := n } := by
  obtain ⟨_, _, _, stores⟩ := Network.stores added
  have e := Network.enqueued assigned
  have pushed := e.trail
  rw [stores.trail] at pushed
  have here : s₁.net.trail.level = k := r.level
  have level : n.trail.level = k := (Trail.level_push pushed).trans here
  have lits : n.trail.lits.toList = s.net.trail.upTo k ++ [l] := by
    rw [Trail.lits_push pushed, Array.toList_push, r.lits]
  refine ⟨⟨level, lits, here ▸ Trail.levelOf_push pushed⟩, fun j under => ?_, r.ok,
    (Network.gains_addClause added).congr r.db e.db⟩
  have under : j < k := level ▸ under
  rw [← r.upTo j (Nat.le_of_lt under)]
  exact Trail.upTo_push r.wf pushed (here ▸ under)

/-! ## Storing -/

theorem Arranged.level_le (h : Arranged t c (a :: b :: rest)) (w : t.WF)
    (false_ : b.value = .fails) : b.level ≤ t.level := by
  have second : b ∈ a :: b :: rest := List.mem_cons_of_mem a List.mem_cons_self
  exact w.levelOf_le (h.false_ w second false_) (h.level b second)

/-- Inserting a clause makes the move that its first two literals call for. -/
theorem insertArranged_inserts (w : s.net.trail.WF) (covers : s.order.Covers s.net.trail none)
    (arr : Arranged s.net.trail c (a :: b :: rest)) (h : s.insertArranged a b d = .ok s') :
    s.Inserts d ((Retreat.of a b).move a.lit) s' := by
  unfold insertArranged at h
  split at h
  next stay =>
    obtain ⟨⟨n, id⟩, added, h⟩ := bind_eq_ok.mp h
    cases h
    obtain ⟨_, _, _, stores⟩ := Network.stores added
    rw [stay]
    exact ⟨stores.trail, fun j _ => congrArg (·.upTo j) stores.trail, rfl,
      Network.gains_addClause added⟩
  next m below =>
    obtain ⟨k, counted, h⟩ := bind_eq_ok.mp h
    obtain ⟨s₁, cancelled, h⟩ := bind_eq_ok.mp h
    obtain ⟨⟨n, id⟩, added, h⟩ := bind_eq_ok.mp h
    cases h
    obtain ⟨-, false_, -, here⟩ := Retreat.of_below below
    have low : b.level ≤ s.level := arr.level_le w false_
    have counted : m = 1 + k := checkedSub_eq_ok.mp counted
    obtain rfl : k = m - 1 := by omega
    have landed := lands_cancelUntil w covers (by omega) cancelled
    rw [below]
    exact landed.retreats added
  next k asserts =>
    obtain ⟨s₁, cancelled, h⟩ := bind_eq_ok.mp h
    obtain ⟨⟨n₁, id⟩, added, h⟩ := bind_eq_ok.mp h
    obtain ⟨_, -, h⟩ := bind_eq_ok.mp h
    obtain ⟨n, assigned, h⟩ := bind_eq_ok.mp h
    cases h
    obtain ⟨false_, here, -⟩ := Retreat.of_assertAt asserts
    have low : b.level ≤ s.level := arr.level_le w false_
    have landed := lands_cancelUntil w covers (here ▸ low) cancelled
    rw [asserts]
    exact landed.implies added assigned

/-- In a run, a clause that is added at any level leaves the solver as it should be. -/
theorem Reaches.added {options : Options} {allowed : Solver → Call → Prop} {calls : List Call}
    {b : Bool} {left : List Lit} (run : Reaches options allowed calls s)
    (h : s.addClauseReporting d = .ok (s', b, left)) :
    Added (regimeOf calls False False fun _ => True) s d s' b ∧ s'.Sane := by
  have r := run.standing
  refine ⟨r.inv.addClause r.idle (fun on => on.elim) (fun on => on.1.elim) h, ?_⟩
  exact run.sane.moves r.inv.core (addClauseReporting_moves r.inv.core r.inv.covers h)

end Solver

end Cdcl
