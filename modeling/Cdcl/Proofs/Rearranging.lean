import Cdcl.Propagation
import Cdcl.Proofs.Storing

/-!
# Rearranging a clause

A visit of propagation may exchange literals of the clause that it visits.  `Rearranged`
says which exchanges are harmless: a clause that is the reason of an assignment stays as
it is, and a literal that comes to be watched is not false.  `Visited` lists what a
visit can do.
-/

namespace Cdcl

/-- The watched literals are exchanged if the given one comes first. -/
theorem Clause.watchSecond_cases (c : Clause) (l : Lit) :
    (c.first = l ∧ c.watchSecond l = { c with first := c.second, second := l }) ∨
      (c.first ≠ l ∧ c.watchSecond l = c) := by
  unfold watchSecond
  split
  next same => exact .inl ⟨same, rfl⟩
  next other => exact .inr ⟨other, rfl⟩

namespace Network

variable {n n' : Network} {lists : Lit → Watcher → Prop} {f : List (List Lit)}
  {settled : Nat → Prop} {due : Lit → ClauseId → Prop} {id : ClauseId} {c c' : Clause}

/-- The clause `c` has been replaced by `c'`, which has the same literals. -/
structure Rearranged (n : Network) (id : ClauseId) (c c' : Clause) (n' : Network) : Prop where
  trail : n'.trail = n.trail
  watches : n'.watches = n.watches
  lessons : n'.journal.lessons = n.journal.lessons
  slots : n'.db.arena.slots.size = n.db.arena.slots.size
  stored : n.body? id = some c
  body : ∀ j, n'.body? j = if j = id then some c' else n.body? j
  perm : c'.lits.Perm c.lits
  learnt : c'.learnt = c.learnt
  locked : c' = c ∨ c.first ∉ n.trail.lits
  watched : ∀ x, x = c'.first ∨ x = c'.second → x = c.first ∨ x = c.second ∨ -x ∉ n.trail.lits

namespace Rearranged

theorem body_self (r : n.Rearranged id c c' n') : n'.body? id = some c' := by
  rw [r.body, if_pos rfl]

/-- Every clause of the new network has the literals of one of the old. -/
theorem body_cases (r : n.Rearranged id c c' n') {j : ClauseId} {b : Clause}
    (h : n'.body? j = some b) : (j = id ∧ b = c') ∨ n.body? j = some b := by
  rw [r.body] at h
  split at h
  next same => exact .inl ⟨same, (Option.some.inj h).symm⟩
  next => exact .inr h

/-- Every clause of the old network is in the new one, and one that is a reason has its first
literal. -/
theorem body_old (r : n.Rearranged id c c' n') {j : ClauseId} {b : Clause}
    (h : n.body? j = some b) : ∃ b', n'.body? j = some b' ∧ b'.lits.Perm b.lits ∧
      b'.learnt = b.learnt ∧ (b' = b ∨ b.first ∉ n.trail.lits) := by
  by_cases same : j = id
  · subst same
    cases r.stored.symm.trans h
    exact ⟨c', r.body_self, r.perm, r.learnt, r.locked⟩
  · exact ⟨b, by rw [r.body, if_neg same, h], .refl _, rfl, .inl rfl⟩

theorem assigned (r : n.Rearranged id c c' n') {i : Nat} {l : Lit} {s : Reason} :
    n'.Assigned i l s ↔ n.Assigned i l s := by
  constructor <;> rintro ⟨here, above, origin⟩
  · exact ⟨r.trail ▸ here, r.trail ▸ above, r.trail ▸ origin⟩
  · exact ⟨r.trail.symm ▸ here, r.trail.symm ▸ above, r.trail.symm ▸ origin⟩

/-- A reason of a true literal stays as it is. -/
theorem behind (r : n.Rearranged id c c' n') {l : Lit} {ps : List Lit} {s : Reason}
    (true_ : l ∈ n.trail.lits) (h : n.Behind l ps s) : n'.Behind l ps s := by
  cases s with
  | clause j =>
      obtain ⟨b, stored, rfl, premises⟩ := h
      obtain ⟨b', stored', -, -, rfl | away⟩ := r.body_old stored
      · exact ⟨b', stored', rfl, premises⟩
      · exact absurd true_ away
  | _ => exact h

/-- A true literal keeps the premises that it had. -/
theorem behind_of (r : n.Rearranged id c c' n') {l : Lit} {ps ps' : List Lit} {s : Reason}
    (true_ : l ∈ n.trail.lits) (old : n.Behind l ps s) (new : n'.Behind l ps' s) :
    n.Behind l ps' s := by
  cases s with
  | clause j =>
      obtain ⟨b, stored, rfl, -⟩ := old
      obtain ⟨b', stored', -, -, rfl | away⟩ := r.body_old stored
      · obtain ⟨b'', stored'', rest⟩ := new
        cases stored'.symm.trans stored''
        exact ⟨b', stored, rest⟩
      · exact absurd true_ away
  | _ => exact new

/-- Rearranging a clause keeps a network well-formed, if the lists do for it. -/
theorem wf {lists' : Lit → Watcher → Prop} (r : n.Rearranged id c c' n') (w : n.WF lists)
    (watched : n'.Watched lists') : n'.WF lists' where
  trail := r.trail ▸ w.trail
  reasons at_ ne := by
    have old := r.assigned.mp at_
    obtain ⟨ps, behind, before⟩ := w.reasons old ne
    rw [r.trail]
    exact ⟨ps, r.behind (Array.mem_of_getElem? old.here) behind, before⟩
  distinct h := by
    rcases r.body_cases h with ⟨rfl, rfl⟩ | old
    · exact ((r.perm.map Lit.var).nodup_iff).mpr (w.distinct r.stored)
    · exact w.distinct old
  watched := watched

/-- Rearranging a clause derives nothing. -/
theorem sound (r : n.Rearranged id c c' n') (w : n.WF lists) (s : n.Sound f) :
    n'.Sound f where
  root h := s.root (r.trail ▸ h)
  clauses h := by
    rcases r.body_cases h with ⟨rfl, rfl⟩ | old
    · exact (s.clauses r.stored).mono fun l hl => r.perm.mem_iff.mpr hl
    · exact s.clauses old
  reasons {i l s' ps} at_ behind := by
    rw [r.trail]
    have old := r.assigned.mp at_
    have ne : s' ≠ .decision := by rintro rfl; exact behind
    obtain ⟨ps', behind', -⟩ := w.reasons old ne
    exact s.reasons old (r.behind_of (Array.mem_of_getElem? old.here) behind' behind)
  lessons h := s.lessons (r.lessons ▸ h)

/-- A literal that is watched from now on was watched before, or is not false. -/
theorem closed (r : n.Rearranged id c c' n') (h : n.Closed settled) : n'.Closed settled := by
  intro k j b low left stored
  rw [r.trail] at low ⊢
  rcases r.body_cases stored with ⟨rfl, rfl⟩ | old
  · intro x watched false_
    have guarded := h low left r.stored x
    rcases r.watched x watched with first | second | free
    · obtain ⟨y, hy, true_⟩ := guarded (.inl first) false_
      exact ⟨y, r.perm.mem_iff.mpr hy, true_⟩
    · obtain ⟨y, hy, true_⟩ := guarded (.inr second) false_
      exact ⟨y, r.perm.mem_iff.mpr hy, true_⟩
    · exact absurd (Trail.mem_of_mem_upTo false_) free
  · exact h low left old

/-- For the same reason no clause becomes due. -/
theorem processed (r : n.Rearranged id c c' n') (h : n.Processed due) :
    n'.Processed due := by
  intro j b x stored watched false_
  rw [r.trail] at false_ ⊢
  rcases r.body_cases stored with ⟨rfl, rfl⟩ | old
  · have old : x = c.first ∨ x = c.second → _ := fun watched => h r.stored watched false_
    have keep : (∃ y ∈ c.lits, y ∈ n.trail.lits) → ∃ y ∈ b.lits, y ∈ n.trail.lits :=
      fun ⟨y, hy, true_⟩ => ⟨y, r.perm.mem_iff.mpr hy, true_⟩
    rcases r.watched x watched with first | second | free
    · exact (old (.inl first)).imp_right keep
    · exact (old (.inr second)).imp_right keep
    · exact absurd (Array.mem_toList_iff.mp (List.mem_of_mem_take false_)) free
  · exact h old watched false_

/-- Clauses stay represented, as they keep their literals. -/
theorem represents (r : n.Rearranged id c c' n') (h : n.Represents f) : n'.Represents f := by
  have vars : n.trail.numVars = n'.trail.numVars := congrArg Trail.numVars r.trail.symm
  apply h.transfer (Nat.le_of_eq vars) (fun fact => r.trail ▸ fact)
  intro id b stored
  obtain ⟨b', stored', perm, learnt, -⟩ := r.body_old stored
  exact ⟨b', stored', learnt, fun l hl => perm.mem_iff.mp hl⟩

/-- The clause needs watchers for the literals that are watched now; those of the other
clauses have to stay. -/
theorem listed {lists' : Lit → Watcher → Prop} (r : n.Rearranged id c c' n')
    (w : n.Watched lists)
    (from_ : ∀ {l v}, lists' l v → lists l v ∨ (v.clause = id ∧ v.blocker ∈ c'.lits))
    (others : ∀ {l v}, lists l v → v.clause ≠ id → lists' l v)
    (first : ∃ b, lists' (-c'.first) ⟨id, b⟩) (second : ∃ b, lists' (-c'.second) ⟨id, b⟩) :
    n'.Watched lists' where
  size := by rw [r.watches, r.trail]; exact w.size
  named h := by
    rw [r.slots]
    rcases from_ h with old | ⟨rfl, -⟩
    · exact w.named old
    · exact Arena.lt_of_body? r.stored
  first {j b} h := by
    by_cases same : j = id
    · subst same
      cases r.body_self.symm.trans h
      exact first
    · rw [r.body, if_neg same] at h
      exact (w.first h).imp fun b hb => others hb same
  second {j b} h := by
    by_cases same : j = id
    · subst same
      cases r.body_self.symm.trans h
      exact second
    · rw [r.body, if_neg same] at h
      exact (w.second h).imp fun b hb => others hb same
  blocker {l v b} h stored := by
    rw [r.trail]
    by_cases same : v.clause = id
    · rw [same] at stored
      cases r.body_self.symm.trans stored
      rcases from_ h with old | ⟨-, inside⟩
      · rw [← same] at r
        exact (w.blocker old r.stored).imp_left r.perm.mem_iff.mpr
      · exact .inl inside
    · rcases from_ h with old | ⟨same', -⟩
      · rw [r.body, if_neg same] at stored
        exact w.blocker old stored
      · exact absurd same' same

/-- Rearranging a clause keeps whatever the regime asks for, if the lists do for it. -/
theorem fits {g : Regime} {lists' : Lit → Watcher → Prop} (r : n.Rearranged id c c' n')
    (h : n.Fits g lists due) (watched : n'.Watched lists') : n'.Fits g lists' due where
  wf := r.wf h.wf watched
  sound on := r.sound h.wf (h.sound on)
  closed on := r.closed (h.closed on)
  processed on := r.processed (h.processed on)
  represents on := r.represents (h.represents on)

end Rearranged

/-- Clauses are no longer due once they have a true literal. -/
theorem Processed.settle {due' : Lit → ClauseId → Prop} (h : n.Processed due)
    (settles : ∀ {x id c}, due x id → n.body? id = some c → x = c.first ∨ x = c.second →
      due' x id ∨ ∃ y ∈ c.lits, y ∈ n.trail.lits) : n.Processed due' := by
  intro id c x stored watched false_
  rcases h stored watched false_ with left | guarded
  · exact settles left stored watched
  · exact .inr guarded

/-! ## What a visit does -/

/-- If no literal is found, all of them are false. -/
theorem findWatch_none {t : Trail} {ls : List Lit} (h : findWatch t ls = .ok none) :
    ∀ l ∈ ls, t.litValue l = .ok .fails := by
  induction ls with
  | nil => exact fun l hl => absurd hl List.not_mem_nil
  | cons a ls ih =>
      obtain ⟨x, read, h⟩ := bind_eq_ok.mp h
      split at h
      · cases h
      next false_ =>
        obtain ⟨found, later, h⟩ := bind_eq_ok.mp h
        split at h
        · cases h
        · have value : x = .fails := by simpa using false_
          intro l hl
          rcases List.mem_cons.mp hl with rfl | hl
          · exact value ▸ read
          · exact ih later l hl

/-- A literal that is found stands between the others, and is not false. -/
theorem findWatch_some {t : Trail} {ls before after : List Lit} {found : Lit}
    (h : findWatch t ls = .ok (some (before, found, after))) :
    ls = before ++ found :: after ∧ t.litValue found ≠ .ok .fails := by
  induction ls generalizing before with
  | nil => cases h
  | cons a ls ih =>
      obtain ⟨x, read, h⟩ := bind_eq_ok.mp h
      split at h
      next free =>
        cases h
        refine ⟨rfl, fun same => ?_⟩
        cases read.symm.trans same
        simp at free
      next =>
        obtain ⟨found', later, h⟩ := bind_eq_ok.mp h
        split at h
        · cases h
          obtain ⟨e, free⟩ := ih later
          exact ⟨by rw [e]; rfl, free⟩
        · cases h

/-- The clause `c` has been turned so that the negation of `p` is watched second. -/
structure Turned (n : Network) (p : Lit) (id : ClauseId) (c c' : Clause) (n' : Network) : Prop
    extends n.Rearranged id c c' n' where
  second : c'.second = -p
  firstNe : c'.first ≠ -p
  first : c'.first = c.first ∨ c'.first = c.second

/-- What a visit of the watcher `w`, in the list of the true literal `p`, can do. -/
inductive Visited (n : Network) (p : Lit) (w : Watcher) : Network → Visit → Prop
  /-- The blocker is true. -/
  | blocked : w.blocker ∈ n.trail.lits → Visited n p w n (.keep w)
  /-- The first literal is true. -/
  | satisfied {n' : Network} {c c' : Clause} : n.Turned p w.clause c c' n' →
      c'.first ∈ n.trail.lits → Visited n p w n' (.keep ⟨w.clause, c'.first⟩)
  /-- Another literal is watched from now on. -/
  | moved {n₁ n' : Network} {c c' : Clause} : n.Rearranged w.clause c c' n₁ →
      c'.first ≠ -p → c'.second ≠ -p → (c'.first = c.first ∨ c'.first = c.second) →
      n₁.watch (-c'.second) ⟨w.clause, c'.first⟩ = .ok n' → Visited n p w n' .moved
  /-- All literals are false. -/
  | conflict {n' : Network} {c c' : Clause} : n.Turned p w.clause c c' n' →
      (∀ l ∈ c'.lits, -l ∈ n.trail.lits) →
      Visited n p w n' (.conflict ⟨w.clause, c'.first⟩)
  /-- All literals but the first are false. -/
  | unit {n₁ n' : Network} {c c' : Clause} : n.Turned p w.clause c c' n₁ →
      (∀ l ∈ c'.premises, -l ∈ n.trail.lits) →
      n₁.Enqueued c'.first (reasonFrom w.clause c') n' →
      Visited n p w n' (.keep ⟨w.clause, c'.first⟩)

/-- Writing the clause back, with its literals in another order. -/
theorem rearranged {arena : Arena} {d d' : Clause} (read : n.clause id = .ok d)
    (written : n.db.arena.set id d' = .ok arena) (perm : d'.lits.Perm d.lits)
    (learnt : d'.learnt = d.learnt) (locked : d'.body = d.body ∨ d.first ∉ n.trail.lits)
    (watched : ∀ x, x = d'.first ∨ x = d'.second →
      x = d.first ∨ x = d.second ∨ -x ∉ n.trail.lits) :
    n.Rearranged id d.body d'.body { n with db := { n.db with arena } } where
  trail := rfl
  watches := rfl
  lessons := rfl
  slots := Arena.size_set written
  stored := Arena.body?_of_get read
  body := Arena.body?_set written
  perm := perm
  learnt := learnt
  locked := locked
  watched := watched

/-- The clause `d`, turned into `c` so that the negation of the true literal `p` is watched
second. -/
structure Facing (t : Trail) (p : Lit) (d c : Clause) : Prop where
  perm : c.lits.Perm d.lits
  learnt : c.learnt = d.learnt
  second : c.second = -p
  first : c.first = d.first ∨ c.first = d.second
  firstNe : c.first ≠ -p
  away : -p ∉ c.rest
  locked : c.body = d.body ∨ d.first ∉ t.lits
  unlocked : c.first ∉ t.lits → d.first ∉ t.lits
  watched : ∀ x, x = c.first ∨ x = c.second → x = d.first ∨ x = d.second ∨ -x ∉ t.lits

/-- Before a visit looks at the clause, it turns the negation of the true literal to the second
place. -/
theorem facing {t : Trail} {p : Lit} {d : Clause} (w : t.WF) (true_ : p ∈ t.lits)
    (distinct : (d.lits.map Lit.var).Nodup) (second : (d.watchSecond (-p)).second = -p) :
    Facing t p d (d.watchSecond (-p)) := by
  have perm := d.perm_watchSecond (-p)
  have negative : -p ∉ t.lits := w.not_both true_
  have cases_ := d.watchSecond_cases (-p)
  generalize d.watchSecond (-p) = c at second perm cases_
  have nodup : (c.lits.map Lit.var).Nodup := ((perm.map Lit.var).nodup_iff).mpr distinct
  rw [Clause.lits, second, List.map_cons, List.map_cons, List.nodup_cons,
    List.nodup_cons] at nodup
  obtain ⟨firstAway, secondAway, -⟩ := nodup
  have firstNe : c.first ≠ -p := by
    intro e
    exact firstAway (e ▸ List.mem_cons_self)
  have away : -p ∉ c.rest := fun inside => secondAway (List.mem_map_of_mem inside)
  rcases cases_ with ⟨e, rfl⟩ | ⟨-, rfl⟩
  · have refuted : d.first ∉ t.lits := e ▸ negative
    refine ⟨perm, rfl, second, .inr rfl, firstNe, away, .inr refuted, fun _ => refuted, ?_⟩
    intro x given
    rcases given with rfl | rfl
    · exact .inr (.inl rfl)
    · exact .inl e.symm
  · refine ⟨perm, rfl, second, .inl rfl, firstNe, away, .inl rfl, id, ?_⟩
    intro x given
    rcases given with rfl | rfl
    · exact .inl rfl
    · exact .inr (.inl rfl)

namespace Facing

variable {t : Trail} {p found : Lit} {d c : Clause} {before after : List Lit}

/-- The clause that watches another literal in the second place. -/
theorem perm_exchange (f : Facing t p d c) (split_ : c.rest = before ++ found :: after) :
    (c.first :: found :: (before ++ -p :: after)).Perm d.lits := by
  have exchanged : (c.first :: found :: (before ++ -p :: after)).Perm c.lits := by
    rw [Clause.lits, f.second, split_]
    apply List.Perm.cons
    have out : (found :: (before ++ after)).Perm (before ++ found :: after) :=
      List.perm_middle.symm
    have in_ : (before ++ -p :: after).Perm (-p :: (before ++ after)) := List.perm_middle
    exact (in_.cons found).trans ((List.Perm.swap _ _ _).trans (out.cons (-p)))
  exact exchanged.trans f.perm

theorem found_ne (f : Facing t p d c) (split_ : c.rest = before ++ found :: after) :
    found ≠ -p := by
  intro same
  subst same
  apply f.away
  rw [split_]
  exact List.mem_append_right _ List.mem_cons_self

/-- The literals that are watched after the exchange were watched before, or are not
false. -/
theorem watched_exchange (f : Facing t p d c) (free : -found ∉ t.lits) :
    ∀ x, x = c.first ∨ x = found → x = d.first ∨ x = d.second ∨ -x ∉ t.lits := by
  intro x given
  rcases given with rfl | rfl
  · exact f.watched _ (.inl rfl)
  · exact .inr (.inr free)

end Facing

/-- A visit to a clause of distinct variables does one of the things listed. -/
theorem visited {p : Lit} {w : Watcher} {v : Visit} (t : n.trail.WF)
    (distinct : ∀ {id c}, n.body? id = some c → (c.lits.map Lit.var).Nodup)
    (true_ : p ∈ n.trail.lits) (h : n.visit p w = .ok (n', v)) : n.Visited p w n' v := by
  obtain ⟨blockerValue, readBlocker, h⟩ := bind_eq_ok.mp h
  split at h
  next same =>
    subst same
    cases h
    exact .blocked (t.holds_iff.mp readBlocker)
  next unblocked =>
  obtain ⟨d, read, h⟩ := bind_eq_ok.mp h
  obtain ⟨_, second, h⟩ := bind_eq_ok.mp h
  obtain ⟨firstValue, readFirst, h⟩ := bind_eq_ok.mp h
  have stored : n.body? w.clause = some d.body := Arena.body?_of_get read
  have vars : (d.body.lits.map Lit.var).Nodup := distinct stored
  have turned : (d.watchSecond (-p)).second = -p := by simpa using ensure_eq_ok.mp second
  have f : Facing n.trail p d (d.watchSecond (-p)) := facing t true_ vars turned
  -- the clause with its watched literals in the order of the visit
  generalize d.watchSecond (-p) = c at f readFirst h
  split at h
  next satisfied =>
    obtain ⟨arena, written, h⟩ := bind_eq_ok.mp h
    cases h
    have r := rearranged read written f.perm f.learnt f.locked f.watched
    have holds := t.holds_iff.mp (satisfied.2 ▸ readFirst)
    have result := Visited.satisfied ⟨r, f.second, f.firstNe, f.first⟩ holds
    exact result
  next open_ =>
  have firstFree : c.first ∉ n.trail.lits := by
    intro holds
    have value : firstValue = .holds :=
      Except.ok.inj (readFirst.symm.trans (t.holds_iff.mpr holds))
    have isBlocker : c.first = w.blocker := by
      by_contra other
      exact open_ ⟨other, value⟩
    rw [isBlocker, readBlocker, value] at readFirst
    exact unblocked (Except.ok.inj readFirst)
  obtain ⟨choice, searched, h⟩ := bind_eq_ok.mp h
  split at h
  next before found after =>
    obtain ⟨split_, free⟩ := findWatch_some searched
    obtain ⟨arena, written, h⟩ := bind_eq_ok.mp h
    obtain ⟨_, -, h⟩ := bind_eq_ok.mp h
    obtain ⟨n₁, watching, h⟩ := bind_eq_ok.mp h
    cases h
    have free : -found ∉ n.trail.lits := fun false_ => free (t.fails_iff.mpr false_)
    have r := rearranged read written (f.perm_exchange split_) f.learnt
      (.inr (f.unlocked firstFree)) (f.watched_exchange free)
    exact .moved r f.firstNe (f.found_ne split_) f.first watching
  next =>
    have allFalse : ∀ l ∈ c.premises, -l ∈ n.trail.lits := by
      intro l hl
      rcases List.mem_cons.mp hl with rfl | hl
      · rw [f.second, Lit.neg_neg]
        exact true_
      · exact t.fails_iff.mp (findWatch_none searched l hl)
    obtain ⟨arena, written, h⟩ := bind_eq_ok.mp h
    have r := rearranged read written f.perm f.learnt f.locked f.watched
    split at h
    next same =>
      cases h
      subst same
      have everyFalse : ∀ l ∈ c.body.lits, -l ∈ n.trail.lits := by
        intro l hl
        rcases List.mem_cons.mp hl with rfl | hl
        · exact t.fails_iff.mp readFirst
        · exact allFalse l hl
      have result := Visited.conflict ⟨r, f.second, f.firstNe, f.first⟩ everyFalse
      exact result
    next =>
      obtain ⟨n₁, assigned, h⟩ := bind_eq_ok.mp h
      cases h
      have result := Visited.unit ⟨r, f.second, f.firstNe, f.first⟩ allFalse (enqueued assigned)
      exact result

end Network

end Cdcl
