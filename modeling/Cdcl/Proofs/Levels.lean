import Cdcl.Proofs.Network

/-!
# Levels, the queue and variables

What opening a level, going back, moving the head of the queue and adding a variable do
to the conditions on a network.

* `closed_openLevel` — a level that is left with everything propagated is settled;
* `BackedTo.processed` — going back to a settled level leaves nothing to propagate.
-/

namespace Cdcl.Network

variable {n n' : Network} {lists : Lit → Watcher → Prop} {f : List (List Lit)}
  {settled : Nat → Prop} {due : Lit → ClauseId → Prop}

/-! ## Opening a level -/

/-- The network with one more level. -/
def openLevel (n : Network) : Network := { n with trail := n.trail.openLevel }

/-- Opening a level assigns nothing. -/
theorem assigned_openLevel {i : Nat} {l : Lit} {r : Reason} :
    n.openLevel.Assigned i l r ↔ n.Assigned i l r := by
  have cut := Trail.cut_openLevel n.trail 0
  constructor <;> rintro ⟨here, above, origin⟩
  · exact ⟨here, cut ▸ above, origin⟩
  · exact ⟨here, cut.symm ▸ above, origin⟩

theorem behind_openLevel {l : Lit} {ps : List Lit} {r : Reason} :
    n.openLevel.Behind l ps r ↔ n.Behind l ps r := by
  cases r <;> rfl

/-- A network stays well-formed when a level is opened. -/
theorem WF.openLevel (w : n.WF lists) : n.openLevel.WF lists where
  trail := w.trail.openLevel
  reasons at_ ne := by
    obtain ⟨ps, behind, before⟩ := w.reasons (assigned_openLevel.mp at_) ne
    exact ⟨ps, behind_openLevel.mpr behind, before⟩
  distinct := w.distinct
  watched := by
    refine ⟨w.watched.size, w.watched.named, w.watched.first, w.watched.second, ?_⟩
    intro l w' c listed stored
    rw [Network.openLevel, Trail.upTo_openLevel]
    exact w.watched.blocker listed stored

theorem Sound.openLevel (s : n.Sound f) : n.openLevel.Sound f where
  root h := s.root (Trail.upTo_openLevel n.trail 0 ▸ h)
  clauses := s.clauses
  reasons at_ behind := s.reasons (assigned_openLevel.mp at_) (behind_openLevel.mp behind)
  lessons := s.lessons

theorem Processed.openLevel (p : n.Processed due) : n.openLevel.Processed due := p

theorem Represents.openLevel (r : n.Represents f) : n.openLevel.Represents f :=
  r.transfer (Nat.le_refl _) (fun fact => (Trail.upTo_openLevel n.trail 0).symm ▸ fact)
    fun {_ b} stored =>
    ⟨b, stored, rfl, fun _ hl => hl⟩

/-- The level that is left is settled if everything has been propagated. -/
theorem closed_openLevel {settled' : Nat → Prop} (c : n.Closed settled)
    (below : ∀ k, k < n.trail.level → settled' k → settled k)
    (here : settled' n.trail.level →
      n.trail.head = n.trail.lits.size ∧ n.Processed noneDue) :
    n.openLevel.Closed settled' := by
  intro k id b low left stored
  rw [Network.openLevel, Trail.upTo_openLevel]
  rw [Network.openLevel, Trail.level_openLevel] at low
  rcases Nat.lt_succ_iff_lt_or_eq.mp low with lower | rfl
  · exact c lower (below k lower left) stored
  · obtain ⟨quiet, processed⟩ := here left
    rw [Trail.upTo_of_le (Nat.le_refl _)]
    intro x watched false_
    have taken : -x ∈ n.trail.lits.toList.take n.trail.head := by
      rw [quiet, ← Array.length_toList, List.take_length]
      exact false_
    obtain ⟨y, hy, true_⟩ := (processed stored watched taken).resolve_left not_false
    exact ⟨y, hy, Array.mem_toList_iff.mpr true_⟩

/-! ## Going back -/

/-- The network with the levels above one of its levels undone. -/
structure BackedTo (n : Network) (k : Nat) (n' : Network) : Prop where
  trail : n.trail.CutBack k n'.trail
  db : n'.db = n.db
  watches : n'.watches = n.watches
  lessons : n'.journal.lessons = n.journal.lessons

namespace BackedTo

variable {k : Nat}

theorem body (b : n.BackedTo k n') (id : ClauseId) : n'.body? id = n.body? id := by
  unfold body?
  rw [b.db]

theorem lists_eq (b : n.BackedTo k n') : n'.Lists = n.Lists := by
  unfold Lists
  rw [b.watches]

theorem behind (b : n.BackedTo k n') {l : Lit} {ps : List Lit} {r : Reason} :
    n'.Behind l ps r ↔ n.Behind l ps r := by
  cases r with
  | clause id => simp only [Behind, b.body]
  | _ => rfl

/-- Going back keeps the facts of the root level. -/
theorem root (b : n.BackedTo k n') (w : n.trail.WF) : n'.trail.upTo 0 = n.trail.upTo 0 := by
  rw [b.trail.upTo w, Nat.zero_min]

/-- The literals that are left have their reasons. -/
theorem assigned (b : n.BackedTo k n') (w : n.trail.WF) {i : Nat} {l : Lit} {r : Reason}
    (h : n'.Assigned i l r) : i < n.trail.cut k ∧ n.Assigned i l r := by
  obtain ⟨here, above, origin⟩ := h
  obtain ⟨low, old⟩ := b.trail.getElem?.mp here
  rw [b.trail.cut w, Nat.zero_min] at above
  unfold Trail.reasonOf at origin
  rw [b.trail.origins] at origin
  exact ⟨low, old, above, origin⟩

/-- Going back keeps a network well-formed, as premises stand before what they imply. -/
theorem wf (b : n.BackedTo k n') (w : n.WF lists) : n'.WF lists where
  trail := b.trail.wf w.trail
  reasons at_ ne := by
    obtain ⟨low, old⟩ := b.assigned w.trail at_
    obtain ⟨ps, behind, before⟩ := w.reasons old ne
    refine ⟨ps, b.behind.mpr behind, fun q hq => ?_⟩
    obtain ⟨j, m, lt, here, same⟩ := before q hq
    exact ⟨j, m, lt, b.trail.getElem?.mpr ⟨by omega, here⟩, same⟩
  distinct h := w.distinct (b.body _ ▸ h)
  watched := by
    refine ⟨?_, ?_, fun h => w.watched.first (b.body _ ▸ h),
      fun h => w.watched.second (b.body _ ▸ h), fun listed stored => ?_⟩
    · rw [b.watches, Trail.numVars, b.trail.sizes]
      exact w.watched.size
    · rw [b.db]
      exact w.watched.named
    · rw [b.root w.trail]
      exact w.watched.blocker listed (b.body _ ▸ stored)

/-- Going back derives nothing. -/
theorem sound (b : n.BackedTo k n') (w : n.WF lists) (s : n.Sound f) : n'.Sound f where
  root h := s.root (b.root w.trail ▸ h)
  clauses h := s.clauses (b.body _ ▸ h)
  reasons {i l r ps} at_ behind := by
    obtain ⟨low, old⟩ := b.assigned w.trail at_
    have behind' := b.behind.mp behind
    obtain ⟨false_, entailed⟩ := s.reasons old behind'
    refine ⟨fun q hq => ?_, entailed⟩
    -- the variable of a premise was assigned before `i`, so it stays assigned
    have ne : r ≠ .decision := by rintro rfl; exact behind'
    obtain ⟨ps', other, before⟩ := w.reasons old ne
    have same : ps' = ps := other.unique behind'
    obtain ⟨j, m, lt, here, var⟩ := before q (same ▸ hq)
    have e : m = -q := w.trail.eq_of_var (Array.mem_of_getElem? here) (false_ q hq) var
    rw [b.trail.mem_iff, Trail.mem_upTo]
    exact ⟨j, by omega, e ▸ here⟩
  lessons h := s.lessons (b.lessons ▸ h)

/-- The settled levels that are left stay settled. -/
theorem closed (b : n.BackedTo k n') (w : n.trail.WF) (c : n.Closed settled) :
    n'.Closed settled := by
  intro j id body low left stored
  rw [b.trail.level] at low
  rw [b.trail.upTo w, Nat.min_eq_left (Nat.le_of_lt low)]
  exact c (Nat.lt_trans low b.trail.below) left (b.body _ ▸ stored)

/-- At a settled level everything has been propagated. -/
theorem processed (b : n.BackedTo k n') (c : n.Closed settled) (here : settled k) :
    n'.Processed noneDue := by
  intro id body x stored watched false_
  obtain ⟨y, hy, true_⟩ := c b.trail.below here (b.body _ ▸ stored) x watched
    (b.trail.lits ▸ List.mem_of_mem_take false_)
  exact .inr ⟨y, hy, b.trail.mem_iff.mpr true_⟩

/-- Going back forgets no clause and no fact. -/
theorem represents (b : n.BackedTo k n') (w : n.trail.WF) (r : n.Represents f) :
    n'.Represents f :=
  r.transfer (Nat.le_of_eq b.trail.sizes.symm) (fun fact => (b.root w).symm ▸ fact)
    fun {id c} stored =>
    ⟨c, (b.body id).trans stored, rfl, fun _ hl => hl⟩

/-- Nothing is left to be propagated. -/
theorem quiet (b : n.BackedTo k n') (w : n.trail.WF) :
    n'.trail.head = n'.trail.lits.size := by
  rw [b.trail.head, b.trail.size w]

end BackedTo

/-! ## The head of the queue -/

/-- The network with the head of the queue elsewhere. -/
def withHead (n : Network) (h : Nat) : Network := { n with trail := { n.trail with head := h } }

theorem assigned_withHead {h i : Nat} {l : Lit} {r : Reason} :
    (n.withHead h).Assigned i l r ↔ n.Assigned i l r :=
  ⟨fun ⟨here, above, origin⟩ => ⟨here, above, origin⟩,
    fun ⟨here, above, origin⟩ => ⟨here, above, origin⟩⟩

/-- How far has been propagated is no matter of well-formedness. -/
theorem WF.withHead (w : n.WF lists) {h : Nat} (bound : h ≤ n.trail.lits.size) :
    (n.withHead h).WF lists where
  trail := w.trail.withHead bound
  reasons at_ ne := by
    obtain ⟨ps, behind, before⟩ := w.reasons (assigned_withHead.mp at_) ne
    refine ⟨ps, ?_, before⟩
    cases ‹Reason› <;> exact behind
  distinct := w.distinct
  watched := ⟨w.watched.size, w.watched.named, w.watched.first, w.watched.second,
    w.watched.blocker⟩

theorem Sound.withHead (s : n.Sound f) (h : Nat) : (n.withHead h).Sound f where
  root := s.root
  clauses := s.clauses
  reasons at_ behind := by
    refine s.reasons (assigned_withHead.mp at_) ?_
    cases ‹Reason› <;> exact behind
  lessons := s.lessons

/-! ## Adding a variable -/

section AddVar

variable {v : Var} {observed : Bool}

/-- The lists of a new variable are empty, and the others stay. -/
theorem lists_addVar (size : n.watches.size = 2 * n.trail.numVars)
    (fresh : v.index = n.trail.numVars) : (n.addVar v observed).Lists = n.Lists := by
  funext l w
  have negative : DenseKey.toIndex (⟨v, false⟩ : Lit) = n.watches.size := by
    simp [Lit.code, fresh, size]
  have positive : DenseKey.toIndex (⟨v, true⟩ : Lit) =
      (n.watches.insert (⟨v, false⟩ : Lit) #[] #[]).size := by
    rw [DenseMap.size_insert, negative]
    simp [Lit.code, fresh, size]
  refine propext (exists_congr fun ws => and_congr_left fun hw => ?_)
  change ((n.watches.insert _ _ _).insert _ _ _).get l = _ ↔ _
  rw [DenseMap.get_insert_size positive, DenseMap.get_insert_size negative]
  -- an empty list holds no watcher, and a key beyond the size cannot be read
  have covered : ∀ s, n.watches.get ⟨v, s⟩ ≠ .ok ws := by
    intro s read
    have inside := DenseMap.toIndex_lt read
    rw [size, Lit.toIndex_eq, Lit.code, fresh] at inside
    omega
  split
  next same =>
    subst same
    refine ⟨fun e => ?_, fun read => absurd read (covered _)⟩
    cases Except.ok.inj e
    simp at hw
  next =>
    split
    next same =>
      subst same
      refine ⟨fun e => ?_, fun read => absurd read (covered _)⟩
      cases Except.ok.inj e
      simp at hw
    next => rfl

/-- A new variable is not assigned. -/
theorem assigned_addVar (w : n.trail.WF) (fresh : v.index = n.trail.numVars) {i : Nat}
    {l : Lit} {r : Reason} (h : (n.addVar v observed).Assigned i l r) : n.Assigned i l r := by
  obtain ⟨here, above, origin⟩ := h
  refine ⟨here, above, ?_⟩
  obtain ⟨o, read, rfl⟩ := Trail.reasonOf_eq_ok.mp origin
  have old := DenseMap.toIndex_lt (w.held.mpr (Array.mem_of_getElem? here))
  change (n.trail.origins.insert v {} {}).get l.var = .ok o at read
  have freshOrigin : DenseKey.toIndex v = n.trail.origins.size := fresh.trans w.sizes.symm
  rw [DenseMap.get_insert_size freshOrigin] at read
  split at read
  next same =>
    rw [same, Var.toIndex_eq, fresh] at old
    exact absurd old (Nat.lt_irrefl _)
  next => exact Trail.reasonOf_eq_ok.mpr ⟨o, read, rfl⟩

/-- A new variable, with empty watch lists, keeps a network well-formed. -/
theorem WF.addVar (w : n.WF lists) (fresh : v.index = n.trail.numVars) :
    (n.addVar v observed).WF lists where
  trail := w.trail.addVar fresh
  reasons at_ ne := by
    obtain ⟨ps, behind, before⟩ := w.reasons (assigned_addVar w.trail fresh at_) ne
    refine ⟨ps, ?_, before⟩
    cases ‹Reason› <;> exact behind
  distinct := w.distinct
  watched := by
    refine ⟨?_, w.watched.named, w.watched.first, w.watched.second, w.watched.blocker⟩
    change ((n.watches.insert _ _ _).insert _ _ _).size = 2 * (n.trail.addVar v).numVars
    rw [DenseMap.size_insert, DenseMap.size_insert, Trail.numVars_addVar fresh,
      w.watched.size]
    simp only [Lit.toIndex_eq, Lit.code, fresh, Bool.toNat_false, Bool.toNat_true]
    omega

theorem Sound.addVar (s : n.Sound f) (w : n.trail.WF) (fresh : v.index = n.trail.numVars) :
    (n.addVar v observed).Sound f where
  root := s.root
  clauses := s.clauses
  reasons at_ behind := by
    refine s.reasons (assigned_addVar w fresh at_) ?_
    cases ‹Reason› <;> exact behind
  lessons := s.lessons

/-- No clause has the new variable in it. -/
theorem Closed.addVar (c : n.Closed settled) : (n.addVar v observed).Closed settled := c

theorem Processed.addVar (p : n.Processed due) : (n.addVar v observed).Processed due := p

/-- A tautology stays one when there are more variables. -/
theorem Represents.addVar (r : n.Represents f) (fresh : v.index = n.trail.numVars) :
    (n.addVar v observed).Represents f := by
  have more : n.trail.numVars ≤ (n.trail.addVar v).numVars := by
    rw [Trail.numVars_addVar fresh]
    exact Nat.le_succ _
  exact r.transfer more id fun {_ b} stored => ⟨b, stored, rfl, fun _ hl => hl⟩

end AddVar

end Cdcl.Network
