import Cdcl.Proofs.Rearranging

/-!
# Propagation

Propagation keeps the conditions on a network, whatever order the watchers come in.
While the list of a literal is walked along, it is away from the network; the clauses of
the watchers to come are due, and those of the watchers passed are not.

* `Visited.keep`, `Visited.moved_fits`, `Visited.conflict_fits` — one visit;
* `scan_fits` — the walk along a list;
* `Propagated` — what a whole propagation comes to: nothing is left to propagate, and
  nothing is due, unless a clause was found all of whose literals are false.
-/

namespace Cdcl.Network

variable {n n' : Network} {g : Regime} {lists : Lit → Watcher → Prop}
  {due : Lit → ClauseId → Prop} {p : Lit} {w w' : Watcher} {kept ws : List Watcher}

/-- The watch lists, with the watchers `ws` standing in the list of `p`. -/
def scanned (n : Network) (p : Lit) (ws : List Watcher) : Lit → Watcher → Prop :=
  fun l w => n.Lists l w ∨ (l = p ∧ w ∈ ws)

/-- The clauses of the watchers `ws` are due, on account of the negation of `p`. -/
def waiting (p : Lit) (ws : List Watcher) : Lit → ClauseId → Prop :=
  fun x id => x = -p ∧ ∃ b, ⟨id, b⟩ ∈ ws

/-- The clause named, if there is one, is false. -/
def Refutes (n : Network) (conflict : Option ClauseId) : Prop :=
  ∀ {id}, conflict = some id → ∃ c, n.body? id = some c ∧ ∀ l ∈ c.lits, -l ∈ n.trail.lits

/-- The clause that waits is the next one, or one of those behind it. -/
theorem waiting_cons {x : Lit} {id : ClauseId} (h : waiting p (w :: ws) x id) :
    (x = -p ∧ id = w.clause) ∨ waiting p ws x id := by
  obtain ⟨rfl, b, inside⟩ := h
  rcases List.mem_cons.mp inside with rfl | later
  · exact .inl ⟨rfl, rfl⟩
  · exact .inr ⟨rfl, b, later⟩

/-- If a visit leaves the clause with a true literal, the clause is no longer due. -/
theorem Fits.pass {n : Network} (h : n.Fits g lists (waiting p (w :: ws)))
    (satisfied : ∀ {c}, n.body? w.clause = some c →
      -p = c.first ∨ -p = c.second → ∃ y ∈ c.lits, y ∈ n.trail.lits) :
    n.Fits g lists (waiting p ws) where
  wf := h.wf
  sound := h.sound
  closed := h.closed
  represents := h.represents
  processed on := by
    apply Processed.settle (h.processed on)
    intro x id c left stored watched
    rcases waiting_cons left with ⟨rfl, rfl⟩ | later
    · exact .inr (satisfied stored watched)
    · exact .inl later

/-- A watcher of the clause that comes in the place of an old one does for it. -/
theorem Turned.relisted {c c' : Clause} {b : Lit} (r : n.Turned p w.clause c c' n')
    (h : n.Watched (n.scanned p (kept ++ w :: ws))) (blocker : b ∈ c'.lits) :
    n'.Watched (n'.scanned p (kept ++ ⟨w.clause, b⟩ :: ws)) := by
  have lists_eq : n'.Lists = n.Lists := by
    unfold Lists
    rw [r.watches]
  have old : ∃ b', n.scanned p (kept ++ w :: ws) (-c'.first) ⟨w.clause, b'⟩ := by
    rcases r.first with e | e
    · exact e ▸ h.first r.stored
    · exact e ▸ h.second r.stored
  have away : -c'.first ≠ p := by
    intro same
    subst same
    exact r.firstNe (Lit.neg_neg _).symm
  apply r.listed h
  · intro l v given
    rcases given with listed | ⟨rfl, inside⟩
    · exact .inl (.inl (lists_eq ▸ listed))
    · simp only [List.mem_append, List.mem_cons] at inside
      rcases inside with before | rfl | after
      · exact .inl (.inr ⟨rfl, by simp [before]⟩)
      · exact .inr ⟨rfl, blocker⟩
      · exact .inl (.inr ⟨rfl, by simp [after]⟩)
  · intro l v given other
    rcases given with listed | ⟨rfl, inside⟩
    · exact .inl (lists_eq ▸ listed)
    · simp only [List.mem_append, List.mem_cons] at inside
      rcases inside with before | rfl | after
      · exact .inr ⟨rfl, by simp [before]⟩
      · exact absurd rfl other
      · exact .inr ⟨rfl, by simp [after]⟩
  · obtain ⟨b', listed | ⟨e, -⟩⟩ := old
    · exact ⟨b', .inl (lists_eq ▸ listed)⟩
    · exact absurd e away
  · refine ⟨b, .inr ⟨?_, by simp⟩⟩
    rw [r.second, Lit.neg_neg]

/-- A clause that moves to another list needs no watcher in the list of `p`. -/
theorem Rearranged.moved {c c' : Clause} {n₁ : Network}
    (r : n.Rearranged w.clause c c' n₁) (h : n.Watched (n.scanned p (kept ++ w :: ws)))
    (firstNe : c'.first ≠ -p) (first : c'.first = c.first ∨ c'.first = c.second)
    (watching : n₁.watch (-c'.second) ⟨w.clause, c'.first⟩ = .ok n') :
    n₁.Watched (n'.scanned p (kept ++ ws)) := by
  have lists_eq : n₁.Lists = n.Lists := by
    unfold Lists
    rw [r.watches]
  have listed_iff := lists_watch watching
  rw [lists_eq] at listed_iff
  have away : -c'.first ≠ p := by
    intro same
    subst same
    exact firstNe (Lit.neg_neg _).symm
  apply r.listed h
  · intro l v given
    rcases given with listed | ⟨rfl, inside⟩
    · rcases (listed_iff l v).mp listed with old | ⟨-, rfl⟩
      · exact .inl (.inl old)
      · exact .inr ⟨rfl, c'.first_mem⟩
    · refine .inl (.inr ⟨rfl, ?_⟩)
      simp only [List.mem_append, List.mem_cons] at inside ⊢
      exact inside.imp_right .inr
  · intro l v given other
    rcases given with listed | ⟨rfl, inside⟩
    · exact .inl ((listed_iff l v).mpr (.inl listed))
    · simp only [List.mem_append, List.mem_cons] at inside
      rcases inside with before | rfl | after
      · exact .inr ⟨rfl, by simp [before]⟩
      · exact absurd rfl other
      · exact .inr ⟨rfl, by simp [after]⟩
  · have old : ∃ b', n.scanned p (kept ++ w :: ws) (-c'.first) ⟨w.clause, b'⟩ := by
      rcases first with e | e
      · exact e ▸ h.first r.stored
      · exact e ▸ h.second r.stored
    obtain ⟨b', listed | ⟨e, -⟩⟩ := old
    · exact ⟨b', .inl ((listed_iff _ _).mpr (.inl listed))⟩
    · exact absurd e away
  · exact ⟨c'.first, .inl ((listed_iff _ _).mpr (.inr ⟨rfl, rfl⟩))⟩

theorem Enqueued.scanned_eq {r : Reason} {q : Lit} (e : n.Enqueued q r n') :
    n'.scanned p ws = n.scanned p ws := by
  unfold scanned
  rw [e.lists_eq]

/-! ## One visit -/

/-- A clause of which all literals but the first are false may make that one true. -/
theorem Fits.imply {c : Clause} {id : ClauseId} {due' : Lit → ClauseId → Prop}
    (h : n.Fits g lists due) (stored : n.body? id = some c)
    (false_ : ∀ l ∈ c.premises, -l ∈ n.trail.lits)
    (e : n.Enqueued c.first (reasonFrom id c) n')
    (settles : ∀ {x j}, due x j → due' x j ∨ j = id) : n'.Fits g lists due' := by
  apply e.fits h
  · intro _ _
    refine ⟨c.premises, behind_reasonFrom stored, fun q hq => ⟨-q, false_ q hq, rfl⟩, ?_⟩
    intro on
    exact ⟨false_, (h.sound on).clauses stored⟩
  · intro on root
    -- at the root, the premises are refuted by facts
    apply ((h.sound on).clauses stored).drop
    intro l hl
    rcases List.mem_cons.mp hl with rfl | hl
    · exact .inl (List.mem_singleton_self _)
    · refine .inr ((h.sound on).root ?_)
      rw [Trail.upTo_of_le (by omega), Array.mem_toList_iff]
      exact false_ l hl
  · intro x j b left stored'
    rcases settles left with still | rfl
    · exact .inl still
    · cases stored.symm.trans stored'
      exact .inr c.first_mem

/-- A visit that keeps its watcher leaves the clause with a true literal. -/
theorem Visited.keep (v : n.Visited p w n' (.keep w'))
    (h : n.Fits g (n.scanned p (kept ++ w :: ws)) (waiting p (w :: ws))) :
    n'.Fits g (n'.scanned p (kept ++ w' :: ws)) (waiting p ws) := by
  cases v with
  | blocked true_ =>
      apply h.pass
      intro c stored _
      rcases h.wf.watched.blocker (.inr ⟨rfl, by simp⟩) stored with inside | false_
      · exact ⟨w.blocker, inside, true_⟩
      · exact absurd (Trail.mem_of_mem_upTo false_) (h.wf.trail.not_both true_)
  | @satisfied _ c c' r true_ =>
      have fits := r.fits h (r.relisted h.wf.watched c'.first_mem)
      apply fits.pass
      intro d stored _
      cases r.body_self.symm.trans stored
      exact ⟨c'.first, c'.first_mem, r.trail ▸ true_⟩
  | @unit n₁ _ c c' r false_ e =>
      have fits := r.fits h (r.relisted h.wf.watched c'.first_mem)
      rw [e.scanned_eq]
      apply fits.imply r.body_self (r.trail ▸ false_) e
      intro x j left
      exact (waiting_cons left).symm.imp_right And.right

/-- A visit that moves its watcher leaves the clause watched at a literal that is not false. -/
theorem Visited.moved_fits (v : n.Visited p w n' .moved)
    (h : n.Fits g (n.scanned p (kept ++ w :: ws)) (waiting p (w :: ws))) :
    n'.Fits g (n'.scanned p (kept ++ ws)) (waiting p ws) := by
  cases v with
  | @moved n₁ _ c c' r firstNe secondNe first watching =>
      obtain ⟨size, e⟩ := watch_eq_ok watching
      have fits := r.fits h (r.moved h.wf.watched firstNe first watching)
      have passed : n₁.Fits g (n'.scanned p (kept ++ ws)) (waiting p ws) := by
        apply fits.pass
        intro d stored watched
        cases r.body_self.symm.trans stored
        rcases watched with same | same
        · exact absurd same.symm firstNe
        · exact absurd same.symm secondNe
      have done := passed.rewatch size
      rw [e]
      rw [e] at done
      exact done

/-- A visit that finds the clause false keeps its watcher, so that the list can be put back. -/
theorem Visited.conflict_fits (v : n.Visited p w n' (.conflict w'))
    (h : n.Fits g (n.scanned p (kept ++ w :: ws)) due) :
    n'.Fits g (n'.scanned p (kept ++ w' :: ws)) (fun _ _ => True) ∧
      n'.Refutes (some w'.clause) := by
  cases v with
  | @conflict _ c c' r false_ =>
      have fits := r.fits h (r.relisted h.wf.watched c'.first_mem)
      refine ⟨fits.weaken fun _ => trivial, ?_⟩
      intro id same
      cases same
      exact ⟨c', r.body_self, r.trail ▸ false_⟩

/-- A visit undoes nothing. -/
theorem Visited.grows {v : Visit} (h : n.Visited p w n' v) : n.trail.Grows n'.trail := by
  cases h with
  | blocked => exact .refl _
  | satisfied r => exact .of_eq r.trail
  | conflict r => exact .of_eq r.trail
  | moved r _ _ _ watching =>
      obtain ⟨-, e⟩ := watch_eq_ok watching
      rw [e]
      exact .of_eq r.trail
  | unit r _ e => exact (Trail.Grows.of_eq r.trail).trans (Trail.grows_push e.trail)

/-! ## The walk along a list -/

/-- By induction along the list, where the clauses that wait become fewer. -/
theorem scan_fits {kept : Array Watcher} {ws : List Watcher} {kept' : Array Watcher}
    {conflict : Option ClauseId} (h : n.scan p kept ws = .ok (n', kept', conflict))
    (fits : n.Fits g (n.scanned p (kept.toList ++ ws)) (waiting p ws))
    (true_ : p ∈ n.trail.lits) :
    n.trail.Grows n'.trail ∧ n'.Refutes conflict ∧
      n'.Fits g (n'.scanned p kept'.toList) (fun _ _ => conflict.isSome = true) := by
  induction ws generalizing n kept with
  | nil =>
      cases h
      refine ⟨.refl _, fun same => absurd same (by simp), ?_⟩
      rw [List.append_nil] at fits
      apply fits.weaken
      intro x id given
      rcases given with ⟨-, b, inside⟩
      exact absurd inside List.not_mem_nil
  | cons w ws ih =>
      obtain ⟨⟨n₁, v⟩, visited_, h⟩ := bind_eq_ok.mp h
      have step := visited fits.wf.trail fits.wf.distinct true_ visited_
      have grows := step.grows
      cases v with
      | keep w' =>
          have fits₁ := step.keep fits
          have e : kept.toList ++ w' :: ws = (kept.push w').toList ++ ws := by simp
          rw [e] at fits₁
          obtain ⟨grows', rest⟩ := ih h fits₁ (grows.lits true_)
          exact ⟨grows.trans grows', rest⟩
      | moved =>
          obtain ⟨grows', rest⟩ := ih h (step.moved_fits fits) (grows.lits true_)
          exact ⟨grows.trans grows', rest⟩
      | conflict w' =>
          obtain ⟨fits₁, refutes⟩ := step.conflict_fits fits
          cases h
          refine ⟨grows, refutes, ?_⟩
          have e : kept.toList ++ w' :: ws = (kept.push w' ++ ws).toList := by simp
          rw [e] at fits₁
          exact fits₁.weaken fun _ => rfl

/-- Writing the watchers back into the list of `p`, which is empty. -/
theorem lists_restore {watches : DenseMap Lit (Array Watcher)} {kept : Array Watcher}
    {rest : Array Watcher} (read : n.watches.get p = .ok rest) (empty : rest.isEmpty = true)
    (written : n.watches.set p kept = .ok watches) :
    { n with watches }.Lists = n.scanned p kept.toList := by
  funext l w
  unfold Lists scanned
  rw [DenseMap.get_set written]
  have none : rest = #[] := by simpa using empty
  subst none
  by_cases same : l = p
  · subst same
    rw [if_pos rfl]
    simp [Lists, read]
  · rw [if_neg same]
    simp [Lists, same]

/-- Taking the list of `p` away from the network. -/
theorem lists_remove {watches : DenseMap Lit (Array Watcher)} {list : Array Watcher}
    (read : n.watches.get p = .ok list) (written : n.watches.set p #[] = .ok watches) :
    { n with watches }.scanned p list.toList = n.Lists := by
  funext l w
  unfold scanned Lists
  rw [DenseMap.get_set written]
  by_cases same : l = p
  · subst same
    rw [if_pos rfl]
    simp [read]
  · rw [if_neg same]
    simp [same]

/-- What a propagation comes to. -/
structure Propagated (n : Network) (g : Regime) (conflict : Option ClauseId)
    (n' : Network) : Prop where
  grows : n.trail.Grows n'.trail
  refutes : n'.Refutes conflict
  fits : n'.Fits g n'.Lists (fun _ _ => conflict.isSome = true)

/-- Once its list has been walked along, a literal has been propagated, unless a clause is false. -/
theorem visitAll_fits {conflict : Option ClauseId} (h : n.visitAll p = .ok (n', conflict))
    (fits : n.Fits g n.Lists (fun x _ => x = -p)) (true_ : p ∈ n.trail.lits) :
    n.Propagated g conflict n' := by
  obtain ⟨list, watches, n₁, kept, rest, watches', read, removed, walked, read', empty, restored,
    rfl⟩ := visitAll_eq_ok h
  have away := lists_remove read removed
  have start : n.Fits g n.Lists (waiting p list.toList) := by
    refine { fits with processed := fun on => ?_ }
    apply Processed.settle (fits.processed on)
    intro x id c same stored watched
    subst same
    -- the clause watches the negation of `p`, so it has a watcher in the list
    have listed : ∃ b, n.Lists p ⟨id, b⟩ := by
      rw [← Lit.neg_neg p]
      rcases watched with e | e
      · exact e ▸ fits.wf.watched.first stored
      · exact e ▸ fits.wf.watched.second stored
    obtain ⟨b, ws, read'', inside⟩ := listed
    cases read.symm.trans read''
    exact .inl ⟨rfl, b, Array.mem_toList_iff.mpr inside⟩
  have start' := start.rewatch (DenseMap.size_set removed)
  rw [← away] at start'
  obtain ⟨grows, refutes, fits'⟩ := scan_fits walked start' true_
  have done := fits'.rewatch (DenseMap.size_set restored)
  rw [← lists_restore read' empty restored] at done
  exact ⟨grows, refutes, done⟩

/-! ## The queue -/

theorem Fits.withHead {due' : Lit → ClauseId → Prop} {i : Nat} (h : n.Fits g lists due)
    (bound : i ≤ n.trail.lits.size) (processed : g.paced → (n.withHead i).Processed due') :
    (n.withHead i).Fits g lists due' where
  wf := h.wf.withHead bound
  sound on := (h.sound on).withHead i
  closed on := h.closed on
  processed := processed
  represents on := h.represents on

/-- By induction over the steps, in which the queue gets shorter. -/
theorem drain_fits {fuel count count' : Nat} {conflict : Option ClauseId}
    (h : drain fuel n count = .ok (n', conflict, count')) (fits : n.Fits g n.Lists noneDue) :
    n.Propagated g conflict n' ∧ n'.trail.head = n'.trail.lits.size := by
  induction fuel generalizing n count with
  | zero =>
      unfold drain at h
      split at h
      next done =>
        cases h
        have high := Array.getElem?_eq_none_iff.mp done
        have low := fits.wf.trail.head
        refine ⟨⟨.refl _, fun same => absurd same (by simp), ?_⟩, by omega⟩
        exact fits.weaken False.elim
      next => cases h
  | succ fuel ih =>
      unfold drain at h
      split at h
      next done =>
        cases h
        have high := Array.getElem?_eq_none_iff.mp done
        have low := fits.wf.trail.head
        refine ⟨⟨.refl _, fun same => absurd same (by simp), ?_⟩, by omega⟩
        exact fits.weaken False.elim
      next p next_ =>
        obtain ⟨inside, -⟩ := Array.getElem?_eq_some_iff.mp next_
        have start : (n.withHead (n.trail.head + 1)).Fits g n.Lists (fun x _ => x = -p) := by
          refine fits.withHead (by omega) fun on id c x stored watched taken => ?_
          obtain ⟨i, low, here⟩ := Trail.mem_take.mp taken
          by_cases last : i = n.trail.head
          · subst last
            have e : -x = p := Option.some.inj (here.symm.trans next_)
            exact .inl (by rw [← e, Lit.neg_neg])
          · have before : -x ∈ n.trail.lits.toList.take n.trail.head :=
              Trail.mem_take.mpr ⟨i, Nat.lt_of_le_of_ne (Nat.lt_succ_iff.mp low) last, here⟩
            exact .inr ((fits.processed on stored watched before).resolve_left False.elim)
        obtain ⟨⟨n₁, conflict₁⟩, visited_, h⟩ := bind_eq_ok.mp h
        obtain ⟨grows, refutes, fits₁⟩ :=
          visitAll_fits visited_ start (Array.mem_of_getElem? next_)
        cases conflict₁ with
        | some id =>
            cases h
            refine ⟨⟨⟨grows.marks, grows.lits, grows.size, grows.unknown⟩, refutes, ?_⟩, rfl⟩
            exact fits₁.withHead (Nat.le_refl _) fun _ _ _ _ _ _ _ => .inl rfl
        | none =>
            obtain ⟨done, quiet⟩ := ih h (fits₁.weaken fun e => absurd e (by simp))
            refine ⟨⟨?_, done.refutes, done.fits⟩, quiet⟩
            exact Trail.Grows.trans ⟨grows.marks, grows.lits, grows.size, grows.unknown⟩
              done.grows

/-- Propagation empties the queue and keeps the conditions on the network. -/
theorem propagate_fits {count : Nat} {conflict : Option ClauseId}
    (h : n.propagate = .ok (n', conflict, count)) (fits : n.Fits g n.Lists noneDue) :
    n.Propagated g conflict n' ∧ n'.trail.head = n'.trail.lits.size :=
  drain_fits h fits

end Cdcl.Network
