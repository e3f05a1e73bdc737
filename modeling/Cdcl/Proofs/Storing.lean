import Cdcl.Proofs.Levels

/-!
# Storing a clause

A clause that is stored gets a name that was not in use, and a watcher in the lists of
the negations of its first two literals.  `Stores` says so, and the theorems after it
say what the clause has to satisfy for the conditions on the network to be kept.
-/

namespace Cdcl.Network

variable {n n' : Network} {f : List (List Lit)} {settled : Nat → Prop}
  {due : Lit → ClauseId → Prop}

/-- Adding a watcher is seen in its list and nowhere else. -/
theorem lists_watch {l : Lit} {w : Watcher} (h : n.watch l w = .ok n') (j : Lit)
    (v : Watcher) : n'.Lists j v ↔ n.Lists j v ∨ (j = l ∧ v = w) := by
  obtain ⟨watches, changed, h⟩ := bind_eq_ok.mp h
  cases h
  obtain ⟨old, read, written⟩ := DenseMap.modify_eq_ok.mp changed
  change (∃ ws, watches.get j = .ok ws ∧ v ∈ ws) ↔ _
  rw [DenseMap.get_set written]
  split
  next same =>
    subst same
    constructor
    · intro given
      rcases given with ⟨ws, e, hv⟩
      cases e
      exact (Array.mem_push.mp hv).imp (fun hv => ⟨old, read, hv⟩) fun e => ⟨rfl, e⟩
    · intro given
      rcases given with ⟨ws, read', hv⟩ | ⟨-, rfl⟩
      · cases read.symm.trans read'
        exact ⟨_, rfl, Array.mem_push.mpr (.inl hv)⟩
      · exact ⟨_, rfl, Array.mem_push_self⟩
  next other => simp [Lists, other]

theorem watch_eq_ok {l : Lit} {w : Watcher} (h : n.watch l w = .ok n') :
    n'.watches.size = n.watches.size ∧ n' = { n with watches := n'.watches } := by
  obtain ⟨watches, changed, h⟩ := bind_eq_ok.mp h
  cases h
  exact ⟨DenseMap.size_modify changed, rfl⟩

/-- Only the tallies change when a clause is counted. -/
theorem retally_eq_ok {learnt : Bool} {g : Tally → Except Fault Tally}
    (h : n.retally learnt g = .ok n') : ∃ learntTally problemTally,
      n' = { n with db := { n.db with learntTally, problemTally } } := by
  unfold retally at h
  split at h
  · obtain ⟨tally, -, h⟩ := bind_eq_ok.mp h
    cases h
    exact ⟨tally, n.db.problemTally, rfl⟩
  · obtain ⟨tally, -, h⟩ := bind_eq_ok.mp h
    cases h
    exact ⟨n.db.learntTally, tally, rfl⟩

theorem alike_retally {learnt : Bool} {g : Tally → Except Fault Tally}
    (h : n.retally learnt g = .ok n') : n.Alike n' := by
  obtain ⟨_, _, rfl⟩ := retally_eq_ok h
  exact ⟨rfl, rfl, fun _ => rfl, rfl, id⟩

/-- What storing the clause `c` under the name `id` does to the network. -/
structure Stores (n : Network) (id : ClauseId) (c : Clause) (n' : Network) : Prop where
  trail : n'.trail = n.trail
  lessons : n'.journal.lessons = n.journal.lessons
  size : n'.watches.size = n.watches.size
  fresh : n.body? id = none
  name : id.index = n.db.arena.slots.size
  slots : n'.db.arena.slots.size = n.db.arena.slots.size + 1
  body : ∀ j, n'.body? j = if j = id then some c else n.body? j
  lists : ∀ l w, n'.Lists l w ↔ n.Lists l w ∨ (l = -c.first ∧ w = ⟨id, c.second⟩) ∨
    (l = -c.second ∧ w = ⟨id, c.first⟩)

/-- Attaching a stored clause gives it its two watchers. -/
theorem attached {id : ClauseId} (h : n.attach id = .ok n') : ∃ c, n.body? id = some c ∧
    n'.trail = n.trail ∧ n'.journal.lessons = n.journal.lessons ∧
    n'.watches.size = n.watches.size ∧
    n'.db.arena = n.db.arena ∧
    ∀ l w, n'.Lists l w ↔ n.Lists l w ∨ (l = -c.first ∧ w = ⟨id, c.second⟩) ∨
      (l = -c.second ∧ w = ⟨id, c.first⟩) := by
  obtain ⟨c, read, h⟩ := bind_eq_ok.mp h
  obtain ⟨n₁, first, h⟩ := bind_eq_ok.mp h
  obtain ⟨n₂, second, h⟩ := bind_eq_ok.mp h
  obtain ⟨size₁, e₁⟩ := watch_eq_ok first
  obtain ⟨size₂, e₂⟩ := watch_eq_ok second
  obtain ⟨_, _, rfl⟩ := retally_eq_ok h
  refine ⟨c.body, Arena.body?_of_get read, ?_, ?_, size₂.trans size₁, ?_, fun l w => ?_⟩
  · change n₂.trail = n.trail
    rw [e₂, e₁]
  · change n₂.journal.lessons = n.journal.lessons
    rw [e₂, e₁]
  · change n₂.db.arena = n.db.arena
    rw [e₂, e₁]
  · change n₂.Lists l w ↔ _
    rw [lists_watch second, lists_watch first, or_assoc]
    rfl

/-- Adding a clause stores its literals under a new name. -/
theorem stores {lits : List Lit} {learnt : Bool} {id : ClauseId}
    (h : n.addClause lits learnt = .ok (n', id)) :
    ∃ c, c.lits = lits ∧ c.learnt = learnt ∧ n.Stores id c n' := by
  obtain ⟨c, made, h⟩ := bind_eq_ok.mp h
  obtain ⟨⟨arena, id'⟩, allocated, h⟩ := bind_eq_ok.mp h
  obtain ⟨n₁, attached_, h⟩ := bind_eq_ok.mp h
  cases h
  obtain ⟨litsEq, learntEq⟩ := Clause.lits_ofLits made
  obtain ⟨name, slots⟩ := Arena.alloc_eq_ok allocated
  obtain ⟨c', stored, trail, lessons, size, arena', lists⟩ := attached attached_
  have place : ∀ db : Database, db = (if learnt then
      { n.db with arena, learnts := n.db.learnts.push id }
    else { n.db with arena, problem := n.db.problem.push id }) → db.arena = arena := by
    intro db same
    subst same
    split <;> rfl
  have arenaEq : n'.db.arena = arena := arena'.trans (place _ rfl)
  have own : c' = c.body := by
    have here : arena.body? id = some c.body := by
      rw [Arena.body?_alloc allocated, if_pos rfl]
    unfold body? at stored
    rw [place _ rfl, here] at stored
    exact (Option.some.inj stored).symm
  subst own
  refine ⟨c.body, litsEq, learntEq, trail, lessons, size, Arena.body?_fresh allocated,
    by rw [name], ?_, fun j => ?_, fun l w => ?_⟩
  · rw [arenaEq, slots, Array.size_push]
  · unfold body?
    rw [arenaEq]
    exact Arena.body?_alloc allocated j
  · exact lists l w

namespace Stores

variable {id : ClauseId} {c : Clause}

theorem ne_of_body (s : n.Stores id c n') {j : ClauseId} {b : Clause}
    (h : n.body? j = some b) : j ≠ id := by
  intro same
  subst same
  rw [s.fresh] at h
  cases h

theorem body_old (s : n.Stores id c n') {j : ClauseId} {b : Clause}
    (h : n.body? j = some b) : n'.body? j = some b := by
  rw [s.body, if_neg (s.ne_of_body h), h]

theorem body_new (s : n.Stores id c n') : n'.body? id = some c := by
  rw [s.body, if_pos rfl]

/-- A stored clause is the new one, or was stored before. -/
theorem body_cases (s : n.Stores id c n') {j : ClauseId} {b : Clause}
    (h : n'.body? j = some b) : (j = id ∧ b = c) ∨ n.body? j = some b := by
  rw [s.body] at h
  split at h
  next same => exact .inl ⟨same, (Option.some.inj h).symm⟩
  next => exact .inr h

/-- Reasons mean what they meant. -/
theorem behind (s : n.Stores id c n') {l : Lit} {ps : List Lit} {r : Reason}
    (h : n.Behind l ps r) : n'.Behind l ps r := by
  cases r with
  | clause j =>
      obtain ⟨b, stored, rest⟩ := h
      exact ⟨b, s.body_old stored, rest⟩
  | _ => exact h

/-- Reasons that were in use mean what they meant. -/
theorem behind_of (s : n.Stores id c n') {l : Lit} {ps ps' : List Lit} {r : Reason}
    (old : n.Behind l ps r) (new : n'.Behind l ps' r) : n.Behind l ps' r := by
  cases r with
  | clause j =>
      obtain ⟨b, stored, -⟩ := old
      obtain ⟨b', stored', rest⟩ := new
      exact ⟨b', by rw [← stored', s.body_old stored, ← stored], rest⟩
  | _ => exact new

theorem assigned (s : n.Stores id c n') {i : Nat} {l : Lit} {r : Reason} :
    n'.Assigned i l r ↔ n.Assigned i l r := by
  constructor <;> rintro ⟨here, above, origin⟩
  · exact ⟨s.trail ▸ here, s.trail ▸ above, s.trail ▸ origin⟩
  · exact ⟨s.trail.symm ▸ here, s.trail.symm ▸ above, s.trail.symm ▸ origin⟩

/-- The new clause has its watchers, and the others keep theirs. -/
theorem watched (s : n.Stores id c n') (w : n.Watched n.Lists) : n'.Watched n'.Lists where
  size := by rw [s.size, s.trail]; exact w.size
  named h := by
    rw [s.slots]
    rcases (s.lists _ _).mp h with old | ⟨-, rfl⟩ | ⟨-, rfl⟩
    · exact Nat.lt_succ_of_lt (w.named old)
    · exact s.name ▸ Nat.lt_succ_self _
    · exact s.name ▸ Nat.lt_succ_self _
  first h := by
    rcases s.body_cases h with ⟨rfl, rfl⟩ | old
    · exact ⟨_, (s.lists _ _).mpr (.inr (.inl ⟨rfl, rfl⟩))⟩
    · exact (w.first old).imp fun b hb => (s.lists _ _).mpr (.inl hb)
  second h := by
    rcases s.body_cases h with ⟨rfl, rfl⟩ | old
    · exact ⟨_, (s.lists _ _).mpr (.inr (.inr ⟨rfl, rfl⟩))⟩
    · exact (w.second old).imp fun b hb => (s.lists _ _).mpr (.inl hb)
  blocker h stored := by
    rw [s.trail]
    rcases (s.lists _ _).mp h with old | ⟨-, rfl⟩ | ⟨-, rfl⟩
    · rcases s.body_cases stored with ⟨same, -⟩ | stored'
      · exact absurd (w.named old) (by rw [same, s.name]; omega)
      · exact w.blocker old stored'
    · cases s.body_new.symm.trans stored
      exact .inl c.second_mem
    · cases s.body_new.symm.trans stored
      exact .inl c.first_mem

/-- Storing a clause of different variables keeps a network well-formed. -/
theorem wf (s : n.Stores id c n') (w : n.WF n.Lists) (distinct : (c.lits.map Lit.var).Nodup) :
    n'.WF n'.Lists where
  trail := s.trail ▸ w.trail
  reasons at_ ne := by
    obtain ⟨ps, behind, before⟩ := w.reasons (s.assigned.mp at_) ne
    rw [s.trail]
    exact ⟨ps, s.behind behind, before⟩
  distinct h := by
    rcases s.body_cases h with ⟨-, rfl⟩ | old
    · exact distinct
    · exact w.distinct old
  watched := s.watched w.watched

/-- The new clause has to follow from the formula. -/
theorem sound (s : n.Stores id c n') (w : n.WF n.Lists) (h : n.Sound f)
    (entailed : Entails f c.lits) : n'.Sound f where
  root hl := h.root (s.trail ▸ hl)
  clauses hb := by
    rcases s.body_cases hb with ⟨-, rfl⟩ | old
    · exact entailed
    · exact h.clauses old
  reasons {i l r ps} at_ behind := by
    rw [s.trail]
    have old := s.assigned.mp at_
    have ne : r ≠ .decision := by rintro rfl; exact behind
    obtain ⟨ps', behind', -⟩ := w.reasons old ne
    exact h.reasons old (s.behind_of behind' behind)
  lessons hc := h.lessons (s.lessons ▸ hc)

/-- At settled levels the new clause has to have a true literal, if a watched one is false. -/
theorem closed (s : n.Stores id c n') (h : n.Closed settled)
    (new : ∀ k, k < n.trail.level → settled k →
      c.Guarded (n.trail.upTo k) (n.trail.upTo k)) : n'.Closed settled := by
  intro k j b low left stored
  rw [s.trail] at low ⊢
  rcases s.body_cases stored with ⟨-, rfl⟩ | old
  · exact new k low left
  · exact h low left old

/-- The new clause is due, unless it has a true literal. -/
theorem processed {due' : Lit → ClauseId → Prop} (s : n.Stores id c n')
    (h : n.Processed due) (old : ∀ {x j}, due x j → due' x j)
    (new : ∀ x, x = c.first ∨ x = c.second → -x ∈ n.trail.lits →
      due' x id ∨ ∃ y ∈ c.lits, y ∈ n.trail.lits) : n'.Processed due' := by
  intro j b x stored watched false_
  rw [s.trail] at false_ ⊢
  rcases s.body_cases stored with ⟨rfl, rfl⟩ | before
  · exact new x watched (Array.mem_toList_iff.mp (List.mem_of_mem_take false_))
  · exact (h before watched false_).imp_left old

theorem represents (s : n.Stores id c n') (h : n.Represents f) : n'.Represents f :=
  h.transfer (Nat.le_of_eq (congrArg Trail.numVars s.trail.symm)) (fun fact => s.trail ▸ fact)
    fun {_ b} stored =>
    ⟨b, s.body_old stored, rfl, fun _ hl => hl⟩

end Stores

theorem parts_of_lits {c : Clause} {a b : Lit} {rest : List Lit}
    (h : c.lits = a :: b :: rest) : c.first = a ∧ c.second = b ∧ c.premises = b :: rest := by
  have h : c.first :: c.premises = a :: b :: rest := h
  obtain ⟨first, premises⟩ := List.cons.inj h
  exact ⟨first, (List.cons.inj premises).1, premises⟩

/-- Storing a clause that is due. -/
theorem Stores.fits {g : Regime} {id : ClauseId} {c : Clause} {due' : Lit → ClauseId → Prop}
    (s : n.Stores id c n') (h : n.Fits g n.Lists due) (distinct : (c.lits.map Lit.var).Nodup)
    (entailed : g.sound → Entails g.formula c.lits)
    (closed : g.paced → ∀ k, k < n.trail.level → g.settled k →
      c.Guarded (n.trail.upTo k) (n.trail.upTo k))
    (old : ∀ {x j}, due x j → due' x j)
    (new : g.paced → ∀ x, x = c.first ∨ x = c.second → -x ∈ n.trail.lits →
      due' x id ∨ ∃ y ∈ c.lits, y ∈ n.trail.lits) : n'.Fits g n'.Lists due' where
  wf := s.wf h.wf distinct
  sound on := s.sound h.wf (h.sound on) (entailed on)
  closed on := s.closed (h.closed on) (closed on)
  processed on := s.processed (h.processed on) old (new on)
  represents on := s.represents (h.represents on)

/-- Storing a clause that implies its first literal, and making that true.  Bookkeeping
may come between. -/
theorem Stores.implies {g : Regime} {id : ClauseId} {c : Clause} {n₁ n₂ : Network}
    (s : n.Stores id c n₁) (a : n₁.Alike n₂)
    (e : n₂.Enqueued c.first (reasonFrom id c) n') (h : n.Fits g n.Lists due)
    (distinct : (c.lits.map Lit.var).Nodup) (entailed : g.sound → Entails g.formula c.lits)
    (false_ : g.sound → ∀ q ∈ c.premises, -q ∈ n.trail.lits)
    (assigned : ∀ q ∈ c.premises, ∃ m ∈ n.trail.lits, m.var = q.var)
    (late : g.paced → ∀ k, k < n.trail.level → g.settled k → -c.second ∉ n.trail.upTo k) :
    n'.Fits g n'.Lists due := by
  have trail : n₂.trail = n.trail := a.trail.trans s.trail
  have unknown : -c.first ∉ n.trail.lits := by
    obtain ⟨read, -⟩ := Trail.push_eq_ok.mp e.trail
    rw [trail] at read
    exact (h.wf.trail.unknown read).2
  have stored : n₁.Fits g n₁.Lists (fun x j => due x j ∨ j = id) := by
    refine s.fits h distinct entailed ?_ .inl fun _ x _ _ => .inl (.inr rfl)
    intro on k low left x watched falseAt
    rcases watched with rfl | rfl
    · exact absurd (Trail.mem_of_mem_upTo falseAt) unknown
    · exact absurd falseAt (late on k low left)
  have here : n₂.body? id = some c := (a.body id).trans s.body_new
  have fits : n₂.Fits g n₂.Lists (fun x j => due x j ∨ j = id) :=
    a.lists_eq ▸ a.fits stored
  have derived : g.sound → Entails g.formula (c.first :: c.premises) := entailed
  rw [e.lists_eq]
  refine e.fits fits (fun _ _ => ⟨c.premises, behind_reasonFrom here, ?_, fun on => ?_⟩) ?_ ?_
  · rw [trail]
    exact assigned
  · rw [trail]
    exact ⟨false_ on, derived on⟩
  · -- at the root the premises are refuted by facts
    intro on root
    apply (derived on).drop
    intro l hl
    rcases List.mem_cons.mp hl with rfl | hl
    · exact .inl (List.mem_singleton.mpr rfl)
    · refine .inr ((h.sound on).root ?_)
      rw [trail] at root
      rw [Trail.upTo_of_le (Nat.le_of_eq root), Array.mem_toList_iff]
      exact false_ on l hl
  · intro x j body due stored'
    rcases due with old | rfl
    · exact .inl old
    · cases here.symm.trans stored'
      exact .inr c.first_mem

/-- One more clause may be represented. -/
theorem Represents.append {d : List Lit} (h : n.Represents f) (new : n.Represented d) :
    n.Represents (f ++ [d]) := by
  intro c hc
  rcases List.mem_append.mp hc with old | last
  · exact h c old
  · cases List.mem_singleton.mp last
    exact new

end Cdcl.Network
