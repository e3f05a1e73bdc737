import Cdcl.Proofs.Storing

/-!
# Giving clauses up

Clauses are removed once they are satisfied or of little use, literals that are false at
the root level are cut off, reasons are forgotten, and the arena is compacted.
`Reduces` says what these have in common: nothing is assigned, the clauses that are left
watch what they watched, and a reason above the root level stays as it is.

* `Reduces.fits` — the conditions on a network are kept;
* `reduces_removeClause`, `reduces_shrink` — one clause.
-/

namespace Cdcl.Network

variable {n n' n'' : Network} {g : Regime} {f : List (List Lit)} {settled : Nat → Prop}
  {due : Lit → ClauseId → Prop} {id : ClauseId}

/-- The clause `b'` is `b` without some unwatched literals that facts refute. -/
structure Trimmed (facts : List Lit) (b b' : Clause) : Prop where
  first : b'.first = b.first
  second : b'.second = b.second
  learnt : b'.learnt = b.learnt
  sub : ∀ l ∈ b'.lits, l ∈ b.lits
  cut : ∀ l ∈ b.lits, l ∈ b'.lits ∨ -l ∈ facts
  distinct : (b.lits.map Lit.var).Nodup → (b'.lits.map Lit.var).Nodup

namespace Trimmed

variable {facts : List Lit} {b b' b'' : Clause}

theorem refl (b : Clause) : Trimmed facts b b :=
  ⟨rfl, rfl, rfl, fun _ => id, fun _ => .inl, id⟩

/-- Literals may be trimmed off in several goes. -/
theorem trans (a : Trimmed facts b b') (c : Trimmed facts b' b'') : Trimmed facts b b'' where
  first := c.first.trans a.first
  second := c.second.trans a.second
  learnt := c.learnt.trans a.learnt
  sub l h := a.sub l (c.sub l h)
  cut l h := by
    rcases a.cut l h with inside | false_
    · exact c.cut l inside
    · exact .inr false_
  distinct h := c.distinct (a.distinct h)

end Trimmed

/-- Clauses, literals and reasons have been given up. -/
structure Reduces (n n' : Network) : Prop where
  trail : n.trail.Forgets n'.trail
  size : n'.watches.size = n.watches.size
  slots : n'.db.arena.slots.size = n.db.arena.slots.size
  lessons : ∀ {c}, c ∈ n'.journal.lessons → c ∈ n.journal.lessons
  lists : ∀ {l w}, n'.Lists l w → n.Lists l w
  kept : ∀ {id b'}, n'.body? id = some b' → ∃ b, n.body? id = some b ∧
    Trimmed (n.trail.upTo 0) b b'
  listed : ∀ {id b' l x}, n'.body? id = some b' → n.Lists l ⟨id, x⟩ → n'.Lists l ⟨id, x⟩
  reasons : ∀ {i l r ps}, n'.Assigned i l r → n.Behind l ps r → n'.Behind l ps r
  lost : ∀ {id b}, n.body? id = some b → b.learnt = false →
    (∃ y ∈ b.lits, y ∈ n.trail.upTo 0) ∨ ∃ b', n'.body? id = some b'

/-- Bookkeeping gives nothing up. -/
theorem Alike.reduces (a : n.Alike n') : n.Reduces n' where
  trail := a.trail ▸ .refl _
  size := by rw [a.watches]
  slots := a.slots
  lessons := a.lessons
  lists h := a.lists_eq ▸ h
  kept h := ⟨_, a.body _ ▸ h, .refl _⟩
  listed _ h := by rw [a.lists_eq]; exact h
  reasons _ h := a.behind.mpr h
  lost h _ := .inr ⟨_, (a.body _).trans h⟩

/-- Above the root, what is left assigned was assigned with the same reason, or its
reason has been forgotten. -/
theorem assigned_forgets (f : n.trail.Forgets n'.trail) {i : Nat} {l : Lit}
    {r : Reason} (h : n'.Assigned i l r) : r = .decision ∨ n.Assigned i l r := by
  obtain ⟨here, above, origin⟩ := h
  obtain ⟨o', read', rfl⟩ := Trail.reasonOf_eq_ok.mp origin
  obtain ⟨o, read, -, same | forgotten⟩ := f.origins read'
  · refine .inr ⟨f.lits ▸ here, f.cut 0 ▸ above, ?_⟩
    exact Trail.reasonOf_eq_ok.mpr ⟨o, read, same.symm⟩
  · exact .inl forgotten

namespace Reduces

theorem refl (n : Network) : n.Reduces n := (Alike.refl n).reduces

/-- Clauses may be given up in several goes. -/
theorem trans (a : n.Reduces n') (b : n'.Reduces n'') : n.Reduces n'' where
  trail := a.trail.trans b.trail
  size := b.size.trans a.size
  slots := b.slots.trans a.slots
  lessons h := a.lessons (b.lessons h)
  lists h := a.lists (b.lists h)
  kept h := by
    obtain ⟨b', stored', trimmed'⟩ := b.kept h
    obtain ⟨b₀, stored, trimmed⟩ := a.kept stored'
    rw [a.trail.upTo] at trimmed'
    exact ⟨b₀, stored, trimmed.trans trimmed'⟩
  listed h listed₀ := by
    obtain ⟨b', stored', -⟩ := b.kept h
    exact b.listed h (a.listed stored' listed₀)
  reasons at_ behind := by
    rcases assigned_forgets b.trail at_ with rfl | at'
    · cases behind
    · exact b.reasons at_ (a.reasons at' behind)
  lost {id b₀} h problem := by
    rcases a.lost h problem with gone | ⟨b', stored'⟩
    · exact .inl gone
    · obtain ⟨b₁, stored, trimmed⟩ := a.kept stored'
      cases h.symm.trans stored
      rcases b.lost stored' (trimmed.learnt.trans problem) with ⟨y, hy, fact⟩ | left
      · rw [a.trail.upTo] at fact
        exact .inl ⟨y, trimmed.sub y hy, fact⟩
      · exact .inr left

/-- Literals that are cut off are false, so the true literals of a clause stay. -/
theorem true_kept {b b' : Clause} {k : Nat} (w : n.trail.WF)
    (t : Trimmed (n.trail.upTo 0) b b') (h : ∃ y ∈ b.lits, y ∈ n.trail.upTo k) :
    ∃ y ∈ b'.lits, y ∈ n.trail.upTo k := by
  obtain ⟨y, hy, true_⟩ := h
  rcases t.cut y hy with inside | false_
  · exact ⟨y, inside, true_⟩
  · exact absurd (Trail.mem_of_mem_upTo false_) (w.not_both (Trail.mem_of_mem_upTo true_))

/-- Giving clauses up keeps a network well-formed. -/
theorem wf (r : n.Reduces n') (w : n.WF n.Lists) : n'.WF n'.Lists where
  trail := r.trail.wf w.trail
  reasons at_ ne := by
    have old := (assigned_forgets r.trail at_).resolve_left ne
    obtain ⟨ps, behind, before⟩ := w.reasons old ne
    rw [r.trail.lits]
    exact ⟨ps, r.reasons at_ behind, before⟩
  distinct h := by
    obtain ⟨b, stored, trimmed⟩ := r.kept h
    exact trimmed.distinct (w.distinct stored)
  watched := by
    refine ⟨?_, fun h => ?_, fun h => ?_, fun h => ?_, fun {l v c} listed h => ?_⟩
    · have size := w.watched.size
      unfold Trail.numVars
      rw [r.size, r.trail.values, size]
      rfl
    · rw [r.slots]
      exact w.watched.named (r.lists h)
    · obtain ⟨b, stored, trimmed⟩ := r.kept h
      obtain ⟨x, listed⟩ := w.watched.first stored
      exact ⟨x, trimmed.first ▸ r.listed h listed⟩
    · obtain ⟨b, stored, trimmed⟩ := r.kept h
      obtain ⟨x, listed⟩ := w.watched.second stored
      exact ⟨x, trimmed.second ▸ r.listed h listed⟩
    · obtain ⟨b, stored, trimmed⟩ := r.kept h
      rw [r.trail.upTo]
      rcases w.watched.blocker (r.lists listed) stored with inside | false_
      · exact trimmed.cut _ inside
      · exact .inr false_

/-- What is left follows, as what has been cut off is false in every model. -/
theorem sound (r : n.Reduces n') (w : n.WF n.Lists) (s : n.Sound f) : n'.Sound f where
  root h := s.root (r.trail.upTo 0 ▸ h)
  clauses h := by
    obtain ⟨b, stored, trimmed⟩ := r.kept h
    apply (s.clauses stored).drop
    intro l hl
    exact (trimmed.cut l hl).imp_right s.root
  reasons {i l s' ps} at_ behind := by
    have ne : s' ≠ .decision := by rintro rfl; exact behind
    have old := (assigned_forgets r.trail at_).resolve_left ne
    obtain ⟨qs, behind', -⟩ := w.reasons old ne
    have same : qs = ps := (r.reasons at_ behind').unique behind
    rw [r.trail.lits]
    exact s.reasons old (same ▸ behind')
  lessons h := s.lessons (r.lessons h)

/-- The clauses that are left keep their true literals. -/
theorem closed (r : n.Reduces n') (w : n.trail.WF) (c : n.Closed settled) :
    n'.Closed settled := by
  intro k id b' low left h x watched false_
  obtain ⟨b, stored, trimmed⟩ := r.kept h
  rw [r.trail.level] at low
  rw [r.trail.upTo] at false_ ⊢
  rw [trimmed.first, trimmed.second] at watched
  exact true_kept w trimmed (c low left stored x watched false_)

/-- No clause becomes due. -/
theorem processed (r : n.Reduces n') (w : n.trail.WF) (p : n.Processed due) :
    n'.Processed due := by
  intro id b' x h watched false_
  obtain ⟨b, stored, trimmed⟩ := r.kept h
  rw [r.trail.head, r.trail.lits] at false_
  rw [trimmed.first, trimmed.second] at watched
  refine (p stored watched false_).imp_right fun ⟨y, hy, true_⟩ => ?_
  have inside : y ∈ n.trail.upTo n.trail.level := by
    rw [Trail.upTo_of_le (Nat.le_refl _), Array.mem_toList_iff]
    exact true_
  obtain ⟨y', hy', true'⟩ := true_kept w trimmed ⟨y, hy, inside⟩
  exact ⟨y', hy', r.trail.lits ▸ Trail.mem_of_mem_upTo true'⟩

/-- A problem clause goes only if it is satisfied at the root level. -/
theorem represents (r : n.Reduces n') (h : n.Represents f) : n'.Represents f := by
  intro c hc
  unfold Represented
  rw [r.trail.upTo]
  rcases h c hc with fact | tautology | ⟨id, b, stored, problem, sub⟩
  · exact .inl fact
  · rw [Trail.numVars, r.trail.values]
    exact .inr (.inl tautology)
  · rcases r.lost stored problem with ⟨y, hy, fact⟩ | ⟨b', stored'⟩
    · exact .inl ⟨y, sub y hy, fact⟩
    · obtain ⟨b₀, stored₀, trimmed⟩ := r.kept stored'
      cases stored.symm.trans stored₀
      refine .inr (.inr ⟨id, b', stored', trimmed.learnt.trans problem, fun l hl => ?_⟩)
      exact sub l (trimmed.sub l hl)

/-- Giving clauses up keeps whatever the regime asks for. -/
theorem fits (r : n.Reduces n') (h : n.Fits g n.Lists due) : n'.Fits g n'.Lists due where
  wf := r.wf h.wf
  sound on := r.sound h.wf (h.sound on)
  closed on := r.closed h.wf.trail (h.closed on)
  processed on := r.processed h.wf.trail (h.processed on)
  represents on := r.represents (h.represents on)

end Reduces

/-! ## Removing a clause -/

/-- Watchers of one clause have been taken away. -/
structure Unwatched (n : Network) (id : ClauseId) (n' : Network) : Prop where
  trail : n'.trail = n.trail
  arena : n'.db.arena = n.db.arena
  journal : n'.journal = n.journal
  size : n'.watches.size = n.watches.size
  fewer : ∀ {j w}, n'.Lists j w → n.Lists j w
  kept : ∀ {j w}, n.Lists j w → w.clause ≠ id → n'.Lists j w

theorem Unwatched.trans (a : n.Unwatched id n') (b : n'.Unwatched id n'') :
    n.Unwatched id n'' where
  trail := b.trail.trans a.trail
  arena := b.arena.trans a.arena
  journal := b.journal.trans a.journal
  size := b.size.trans a.size
  fewer h := a.fewer (b.fewer h)
  kept h other := b.kept (a.kept h other) other

/-- Taking one watcher out of a list leaves the others. -/
theorem unwatched {l : Lit} (h : n.unwatch l id = .ok n') : n.Unwatched id n' := by
  obtain ⟨list, i, watches, read, found, changed, rfl⟩ := unwatch_eq_ok h
  obtain ⟨old, read', written⟩ := DenseMap.modify_eq_ok.mp changed
  cases read.symm.trans read'
  have toList : (list.eraseIdxIfInBounds i).toList = list.toList.eraseIdx i := by
    simp [Array.toList_eraseIdxIfInBounds]
  refine ⟨rfl, rfl, rfl, DenseMap.size_modify changed, ?_, ?_⟩
  · intro j w given
    rcases given with ⟨ws, here, inside⟩
    change watches.get j = .ok ws at here
    rw [DenseMap.get_set written] at here
    split at here
    next same =>
      subst same
      cases here
      refine ⟨list, read, ?_⟩
      rw [← Array.mem_toList_iff, toList] at inside
      exact Array.mem_toList_iff.mp (List.mem_of_mem_eraseIdx inside)
    next => exact ⟨ws, here, inside⟩
  · intro j w given other
    rcases given with ⟨ws, here, inside⟩
    change ∃ ws, watches.get j = .ok ws ∧ w ∈ ws
    rw [DenseMap.get_set written]
    split
    next same =>
      subst same
      cases read.symm.trans here
      refine ⟨_, rfl, ?_⟩
      rw [← Array.mem_toList_iff, toList, List.mem_eraseIdx_iff_getElem?]
      obtain ⟨k, there⟩ := List.mem_iff_getElem?.mp (Array.mem_toList_iff.mpr inside)
      refine ⟨k, ?_, there⟩
      intro same
      subst same
      have at_ := Array.findIdx?_eq_some_iff_getElem.mp found
      obtain ⟨inside', yes, -⟩ := at_
      rw [Array.getElem?_toList, Array.getElem?_eq_getElem inside'] at there
      rw [Option.some.inj there] at yes
      exact other (by simpa using yes)
    next => exact ⟨ws, here, inside⟩

/-- Detaching a clause takes its two watchers away. -/
theorem unwatched_detach (h : n.detach id = .ok n') : n.Unwatched id n' := by
  obtain ⟨c, -, h⟩ := bind_eq_ok.mp h
  obtain ⟨n₁, first, h⟩ := bind_eq_ok.mp h
  obtain ⟨n₂, second, h⟩ := bind_eq_ok.mp h
  have both := (unwatched first).trans (unwatched second)
  obtain ⟨_, _, rfl⟩ := retally_eq_ok h
  exact ⟨both.trail, both.arena, both.journal, both.size, both.fewer, both.kept⟩

/-- Only the reason of a variable is given up. -/
theorem releaseReason_eq_ok {c : Clause} (h : n.releaseReason id c = .ok n') :
    ∃ trail, n.trail.Forgets trail ∧ n' = { n with trail } := by
  obtain ⟨_, -, h⟩ := bind_eq_ok.mp h
  obtain ⟨_, -, h⟩ := bind_eq_ok.mp h
  split at h
  · obtain ⟨trail, forgotten, h⟩ := bind_eq_ok.mp h
    cases h
    exact ⟨trail, Trail.forgets_forgetReason forgotten, rfl⟩
  · cases h
    exact ⟨n.trail, .refl _, rfl⟩

/-- The clause is gone with its watchers, and reasons may have been forgotten. -/
structure Removes (n : Network) (id : ClauseId) (n' : Network) : Prop where
  trail : n.trail.Forgets n'.trail
  journal : n'.journal = n.journal
  size : n'.watches.size = n.watches.size
  slots : n'.db.arena.slots.size = n.db.arena.slots.size
  body : ∀ j, n'.body? j = if j = id then none else n.body? j
  fewer : ∀ {j w}, n'.Lists j w → n.Lists j w
  kept : ∀ {j w}, n.Lists j w → w.clause ≠ id → n'.Lists j w

/-- Removing a clause takes it away with its watchers, and its reason with it. -/
theorem removes (h : n.removeClause id = .ok n') : n.Removes id n' := by
  obtain ⟨n₁, d, n₂, arena, detached, -, released, freed, rfl⟩ := removeClause_eq_ok h
  have u := unwatched_detach detached
  obtain ⟨trail, forgets, rfl⟩ := releaseReason_eq_ok released
  refine ⟨u.trail ▸ forgets, u.journal, u.size, ?_, fun j => ?_, u.fewer, u.kept⟩
  · rw [← u.arena]
    exact Arena.size_free freed
  · unfold body?
    rw [← u.arena]
    exact Arena.body?_free freed j

/-- A clause may be removed that is no reason above the root, if it is a learnt one or
satisfied at the root. -/
theorem reduces_removeClause {c : Clause} (stored : n.body? id = some c)
    (unlocked : ∀ {i l}, ¬n.Assigned i l (.clause id))
    (needless : c.learnt = false → ∃ y ∈ c.lits, y ∈ n.trail.upTo 0)
    (h : n.removeClause id = .ok n') : n.Reduces n' := by
  have r := removes h
  refine ⟨r.trail, r.size, r.slots, ?_, r.fewer, ?_, ?_, ?_, ?_⟩
  · intro c' told
    exact r.journal ▸ told
  · intro j b' here
    rw [r.body] at here
    split at here
    · cases here
    · exact ⟨b', here, .refl _⟩
  · intro j b' l x here listed
    rw [r.body] at here
    split at here
    next => cases here
    next other => exact r.kept listed other
  · intro i l why ps at_ behind
    cases why with
    | clause j =>
        have old : n.Assigned i l (.clause j) :=
          (assigned_forgets r.trail at_).resolve_left (by simp)
        obtain ⟨b, here, rest⟩ := behind
        refine ⟨b, ?_, rest⟩
        rw [r.body, if_neg, here]
        intro same
        subst same
        exact unlocked old
    | _ => exact behind
  · intro j b here problem
    by_cases same : j = id
    · subst same
      cases stored.symm.trans here
      exact .inl (needless problem)
    · exact .inr ⟨b, by rw [r.body, if_neg same, here]⟩

/-- Literals that are false at the root may be cut off a clause, if nothing is assigned
above the root. -/
theorem reduces_shrink {arena : Arena} {rest : List Lit} {c : Clause}
    (stored : n.body? id = some c) (root : ∀ {i l r}, ¬n.Assigned i l r)
    (trimmed : Trimmed (n.trail.upTo 0) c { c with rest })
    (h : n.db.arena.shrink id rest = .ok arena) :
    n.Reduces { n with db := { n.db with arena } } := by
  obtain ⟨d, read, slots, body⟩ := Arena.body?_shrink h
  have same : d.body = c := by
    have here : n.body? id = some d.body := Arena.body?_of_get read
    exact Option.some.inj (here.symm.trans stored)
  rw [same] at body
  have body' : ∀ j, body? { n with db := { n.db with arena } } j =
      if j = id then some { c with rest } else n.body? j := body
  refine ⟨.refl _, rfl, slots, fun told => told, fun listed => listed, ?_,
    fun _ listed => listed, ?_, ?_⟩
  · intro j b' here
    rw [body'] at here
    split at here
    next e =>
      subst e
      cases here
      exact ⟨c, stored, trimmed⟩
    next => exact ⟨b', here, .refl _⟩
  · intro i l r ps at_ _
    exact absurd ⟨at_.here, at_.above, at_.origin⟩ root
  · intro j b here _
    rw [body']
    split
    next => exact .inr ⟨_, rfl⟩
    next => exact .inr ⟨b, here⟩

end Cdcl.Network
