import Cdcl.Formula
import Cdcl.Network
import Cdcl.Proofs.Arena
import Cdcl.Proofs.Trail

/-!
# What holds of a propagation network

The conditions that the operations of a solver keep, each about the trail, the stored
clauses and the watch lists alone.

* `Network.WF` — the trail is well-formed, each implied literal above the root has a
  reason whose variables were assigned before it, and each stored clause has a watcher
  in the lists of its first two literals;
* `Network.Sound f` — the facts of the root level, the stored clauses, the reasons and
  the clauses learnt follow from the formula `f`;
* `Network.Closed settled` — at each level that was left with everything propagated, a
  clause with a false watched literal has a true literal of that level or below;
* `Network.Processed due` — so it is for what has been propagated now, but for the
  clauses that are still due;
* `Network.Represents f` — each clause of `f` is settled by a root fact, is a tautology,
  or is stored without some of its literals.

A `Regime` says which of them are kept during a run, and `Network.Fits` puts those
together.

Conditions on watch lists are stated about any relation between literals and watchers,
because a list is away from the network while it is being scanned.
-/

namespace Cdcl

theorem Satisfies.mono {σ : Assignment} {c d : List Lit} (h : Satisfies σ c)
    (sub : ∀ l ∈ c, l ∈ d) : Satisfies σ d := by
  obtain ⟨l, hl, holds⟩ := h
  exact ⟨l, sub l hl, holds⟩

theorem Entails.mono {f : List (List Lit)} {c d : List Lit} (h : Entails f c)
    (sub : ∀ l ∈ c, l ∈ d) : Entails f d := fun σ model => (h σ model).mono sub

/-- What follows from a formula follows from any formula with more clauses. -/
theorem Entails.append {f : List (List Lit)} {c : List Lit} (h : Entails f c)
    (g : List (List Lit)) : Entails (f ++ g) c := fun σ model =>
  h σ (models_append.mp model).1

theorem entails_of_mem {f : List (List Lit)} {c : List Lit} (h : c ∈ f) : Entails f c :=
  fun _ model => model c h

/-- Literals that are false in every model can be left out. -/
theorem Entails.drop {f : List (List Lit)} {c d : List Lit} (h : Entails f c)
    (rest : ∀ l ∈ c, l ∈ d ∨ Entails f [-l]) : Entails f d := by
  intro σ model
  obtain ⟨l, hl, holds⟩ := h σ model
  rcases rest l hl with inside | refuted
  · exact ⟨l, inside, holds⟩
  · obtain ⟨m, hm, false_⟩ := refuted σ model
    cases List.mem_singleton.mp hm
    exact absurd holds (Lit.holds_neg.mp false_)

/-- A literal follows from a formula if it is true in every model. -/
theorem entails_singleton {f : List (List Lit)} {l : Lit} :
    Entails f [l] ↔ ∀ σ, Models σ f → l.Holds σ := by
  simp [Entails, Satisfies]

/-- The literals of the clause that a message tells has been learnt. -/
def Message.lesson? : Message → Option (List Lit)
  | .learnt lits _ => some lits
  | _ => none

namespace Journal

/-- The clauses that the journal tells have been learnt. -/
def lessons (j : Journal) : List (List Lit) := j.messages.toList.filterMap Message.lesson?

/-- A message adds at most one learnt clause. -/
theorem lessons_log {j : Journal} {m : Message} {c : List Lit}
    (h : c ∈ (j.log m).lessons) : c ∈ j.lessons ∨ m.lesson? = some c := by
  simp only [lessons, List.mem_filterMap, Array.mem_toList_iff] at h ⊢
  obtain ⟨m', inside, told⟩ := h
  unfold log at inside
  split at inside
  · split at inside
    · rcases Array.mem_push.mp inside with old | rfl
      · exact .inl ⟨m', old, told⟩
      · exact .inr told
    · exact .inl ⟨m', inside, told⟩
  · exact .inl ⟨m', inside, told⟩

/-- Messages of another kind tell of no learnt clause. -/
theorem lessons_log_quiet {j : Journal} {m : Message} (quiet : m.lesson? = none) :
    (j.log m).lessons = j.lessons := by
  unfold log lessons
  split
  · split
    · simp [quiet]
    · rfl
  · rfl

theorem lessons_report (j : Journal) (e : Event) : (j.report e).lessons = j.lessons := by
  unfold report
  split <;> rfl

end Journal

/-- If a watched literal of the clause was made false in `old`, some literal of it is
true in `new`. -/
def Clause.Guarded (c : Clause) (old new : List Lit) : Prop :=
  ∀ x, x = c.first ∨ x = c.second → -x ∈ old → ∃ y ∈ c.lits, y ∈ new

namespace Network

/-- The body of a live clause. -/
def body? (n : Network) (id : ClauseId) : Option Clause := n.db.arena.body? id

/-- The watcher is in the list of the literal. -/
def Lists (n : Network) (l : Lit) (w : Watcher) : Prop :=
  ∃ ws, n.watches.get l = .ok ws ∧ w ∈ ws

/-- The reason says that `l` is true because the literals `ps` are false. -/
def Behind (n : Network) (l : Lit) (ps : List Lit) : Reason → Prop
  | .decision => False
  | .binary a => ps = [a]
  | .ternary a b => ps = [a, b]
  | .clause id => ∃ c, n.body? id = some c ∧ c.first = l ∧ c.premises = ps

/-- The literal was assigned with the reason, at a place of the trail above the root. -/
structure Assigned (n : Network) (i : Nat) (l : Lit) (r : Reason) : Prop where
  here : n.trail.lits[i]? = some l
  above : n.trail.cut 0 ≤ i
  origin : n.trail.reasonOf l.var = .ok r

/-- Each stored clause is watched, and watchers name clauses and literals of them. -/
structure Watched (n : Network) (lists : Lit → Watcher → Prop) : Prop where
  size : n.watches.size = 2 * n.trail.numVars
  named : ∀ {l w}, lists l w → w.clause.index < n.db.arena.slots.size
  first : ∀ {id c}, n.body? id = some c → ∃ b, lists (-c.first) ⟨id, b⟩
  second : ∀ {id c}, n.body? id = some c → ∃ b, lists (-c.second) ⟨id, b⟩
  blocker : ∀ {l w c}, lists l w → n.body? w.clause = some c →
    w.blocker ∈ c.lits ∨ -w.blocker ∈ n.trail.upTo 0

/-- The trail, the reasons, the stored clauses and the watch lists fit together. -/
structure WF (n : Network) (lists : Lit → Watcher → Prop) : Prop where
  trail : n.trail.WF
  reasons : ∀ {i l r}, n.Assigned i l r → r ≠ .decision → ∃ ps, n.Behind l ps r ∧
    ∀ q ∈ ps, ∃ j m, j < i ∧ n.trail.lits[j]? = some m ∧ m.var = q.var
  distinct : ∀ {id c}, n.body? id = some c → (c.lits.map Lit.var).Nodup
  watched : n.Watched lists

/-- What the network holds true follows from the formula. -/
structure Sound (n : Network) (f : List (List Lit)) : Prop where
  root : ∀ {l}, l ∈ n.trail.upTo 0 → Entails f [l]
  clauses : ∀ {id c}, n.body? id = some c → Entails f c.lits
  reasons : ∀ {i l r ps}, n.Assigned i l r → n.Behind l ps r →
    (∀ q ∈ ps, -q ∈ n.trail.lits) ∧ Entails f (l :: ps)
  lessons : ∀ {c}, c ∈ n.journal.lessons → Entails f c

/-- The premises of each reason above the root level are false. -/
def Justified (n : Network) : Prop :=
  ∀ {i l r ps}, n.Assigned i l r → n.Behind l ps r → ∀ q ∈ ps, -q ∈ n.trail.lits

/-- At each settled level below the current one, a clause with a false watched literal
has a true literal. -/
def Closed (n : Network) (settled : Nat → Prop) : Prop :=
  ∀ {k id c}, k < n.trail.level → settled k → n.body? id = some c →
    c.Guarded (n.trail.upTo k) (n.trail.upTo k)

/-- A clause with a watched literal that is false and has been propagated has a true
literal, or is due. -/
def Processed (n : Network) (due : Lit → ClauseId → Prop) : Prop :=
  ∀ {id c x}, n.body? id = some c → x = c.first ∨ x = c.second →
    -x ∈ n.trail.lits.toList.take n.trail.head →
    due x id ∨ ∃ y ∈ c.lits, y ∈ n.trail.lits

/-- Nothing is due. -/
def noneDue : Lit → ClauseId → Prop := fun _ _ => False

/-- The clause is true by a root fact, is a tautology, or is stored without some of its
literals. -/
def Represented (n : Network) (c : List Lit) : Prop :=
  (∃ l ∈ c, l ∈ n.trail.upTo 0) ∨ (∃ l ∈ c, -l ∈ c ∧ l.var.index < n.trail.numVars) ∨
    ∃ id b, n.body? id = some b ∧ b.learnt = false ∧ ∀ l ∈ b.lits, l ∈ c

/-- Every clause of the formula is represented. -/
def Represents (n : Network) (f : List (List Lit)) : Prop := ∀ c ∈ f, n.Represented c

/-- Clauses stay represented if variables and facts stay, and stored clauses keep none
but their own literals. -/
theorem Represents.transfer {n n' : Network} {f : List (List Lit)} (h : n.Represents f)
    (vars : n.trail.numVars ≤ n'.trail.numVars)
    (root : ∀ {l}, l ∈ n.trail.upTo 0 → l ∈ n'.trail.upTo 0)
    (body : ∀ {id b}, n.body? id = some b →
      ∃ b', n'.body? id = some b' ∧ b'.learnt = b.learnt ∧ ∀ l ∈ b'.lits, l ∈ b.lits) :
    n'.Represents f := by
  intro c hc
  rcases h c hc with ⟨l, hl, fact⟩ | ⟨l, hl, neg, inside⟩ | ⟨id, b, stored, problem, sub⟩
  · exact .inl ⟨l, hl, root fact⟩
  · exact .inr (.inl ⟨l, hl, neg, Nat.lt_of_lt_of_le inside vars⟩)
  · obtain ⟨b', stored', learnt, less⟩ := body stored
    exact .inr (.inr ⟨id, b', stored', learnt.trans problem, fun l hl => sub l (less l hl)⟩)

/-- What is kept during a run: the formula from which all that is derived follows, if
`sound` is asked for, the clauses that have been stored and are visited in time, if
`paced` is asked for, and the levels that were left with everything propagated. -/
structure Regime where
  formula : List (List Lit)
  stored : List (List Lit)
  sound : Prop
  paced : Prop
  settled : Nat → Prop

/-- The conditions that the regime asks for. -/
structure Fits (n : Network) (g : Regime) (lists : Lit → Watcher → Prop)
    (due : Lit → ClauseId → Prop) : Prop where
  wf : n.WF lists
  sound : g.sound → n.Sound g.formula
  closed : g.paced → n.Closed g.settled
  processed : g.paced → n.Processed due
  represents : g.paced → n.Represents g.stored

/-- A regime that asks for less, or for the same about other levels. -/
theorem Fits.regime {n : Network} {g g' : Regime} {lists : Lit → Watcher → Prop}
    {due : Lit → ClauseId → Prop} (h : n.Fits g lists due)
    (sound : g'.sound → g.sound ∧ ∀ c, Entails g.formula c → Entails g'.formula c)
    (paced : g'.paced → g.paced ∧ g'.stored = g.stored ∧
      ∀ k, k < n.trail.level → g'.settled k → g.settled k) : n.Fits g' lists due where
  wf := h.wf
  sound on := by
    obtain ⟨on, more⟩ := sound on
    have s := h.sound on
    refine ⟨fun fact => more _ (s.root fact), fun stored => more _ (s.clauses stored), ?_,
      fun told => more _ (s.lessons told)⟩
    intro i l r ps at_ behind
    obtain ⟨false_, entailed⟩ := s.reasons at_ behind
    exact ⟨false_, more _ entailed⟩
  closed on := by
    obtain ⟨on, -, less⟩ := paced on
    intro k id c low left
    exact h.closed on low (less k low left)
  processed on := h.processed (paced on).1
  represents on := by
    obtain ⟨on, same, -⟩ := paced on
    exact same ▸ h.represents on

/-- Treating more clauses as due asks for less. -/
theorem Fits.weaken {n : Network} {g : Regime} {lists : Lit → Watcher → Prop}
    {due due' : Lit → ClauseId → Prop} (h : n.Fits g lists due)
    (more : ∀ {x id}, due x id → due' x id) : n.Fits g lists due' :=
  { h with processed := fun on _ _ _ stored watched false_ =>
      (h.processed on stored watched false_).imp_left more }

/-- A reason has one list of premises. -/
theorem Behind.unique {n : Network} {l : Lit} {ps qs : List Lit} {r : Reason}
    (h : n.Behind l ps r) (h' : n.Behind l qs r) : ps = qs := by
  cases r with
  | decision => cases h
  | binary a => exact h.trans h'.symm
  | ternary a b => exact h.trans h'.symm
  | clause id =>
      obtain ⟨c, stored, -, rfl⟩ := h
      obtain ⟨d, stored', -, rfl⟩ := h'
      cases stored.symm.trans stored'
      rfl

/-- A stored clause stands behind its first literal. -/
theorem behind_reasonFrom {n : Network} {id : ClauseId} {c : Clause}
    (stored : n.body? id = some c) : n.Behind c.first c.premises (reasonFrom id c) := by
  unfold reasonFrom
  split
  · exact ⟨c, stored, rfl, rfl⟩
  · split
    next e => exact congrArg _ e
    next third e => exact congrArg _ e
    next => exact ⟨c, stored, rfl, rfl⟩

/-- The network without variables satisfies all conditions, if no clause has been told to
be learnt. -/
theorem fits_empty {journal : Journal} {g : Regime} {due : Lit → ClauseId → Prop}
    (quiet : journal.lessons = []) (none : g.stored = []) :
    (empty journal).Fits g (empty journal).Lists due := by
  have unassigned : ∀ {i l r}, ¬(empty journal).Assigned i l r := fun at_ =>
    absurd at_.here (by simp [empty, Trail.empty])
  have unstored : ∀ {id c}, (empty journal).body? id ≠ some c := by
    intro id c stored
    exact absurd (Arena.lt_of_body? stored) (Nat.not_lt_zero _)
  have unlisted : ∀ {l w}, ¬(empty journal).Lists l w := by
    intro l w listed
    obtain ⟨ws, read, -⟩ := listed
    exact absurd (DenseMap.toIndex_lt read) (Nat.not_lt_zero _)
  refine ⟨⟨.empty, fun at_ => absurd at_ unassigned, fun h => absurd h unstored, ?_⟩,
    fun _ => ⟨fun h => ?_, fun h => absurd h unstored, fun at_ => absurd at_ unassigned, ?_⟩,
    fun _ _ _ _ _ _ h => absurd h unstored, fun _ _ _ _ h => absurd h unstored, ?_⟩
  · exact ⟨rfl, fun h => absurd h unlisted, fun h => absurd h unstored,
      fun h => absurd h unstored, fun h => absurd h unlisted⟩
  · exact absurd (Trail.mem_of_mem_upTo h) (by simp [empty, Trail.empty])
  · intro c told
    change c ∈ journal.lessons at told
    rw [quiet] at told
    cases told
  · intro _ c hc
    rw [none] at hc
    cases hc

/-! ## Networks that differ in bookkeeping only -/

/-- The networks differ at most in places, activities, tallies and what was told to the
outside, and no clause was told to be learnt. -/
structure Alike (n n' : Network) : Prop where
  trail : n'.trail = n.trail
  watches : n'.watches = n.watches
  body : ∀ id, n'.body? id = n.body? id
  slots : n'.db.arena.slots.size = n.db.arena.slots.size
  lessons : ∀ {c}, c ∈ n'.journal.lessons → c ∈ n.journal.lessons

namespace Alike

variable {n n' n'' : Network} {lists : Lit → Watcher → Prop} {f : List (List Lit)}

theorem refl (n : Network) : n.Alike n := ⟨rfl, rfl, fun _ => rfl, rfl, id⟩

theorem trans (a : n.Alike n') (b : n'.Alike n'') : n.Alike n'' where
  trail := b.trail.trans a.trail
  watches := b.watches.trans a.watches
  body id := (b.body id).trans (a.body id)
  slots := b.slots.trans a.slots
  lessons h := a.lessons (b.lessons h)

theorem lists_eq (a : n.Alike n') : n'.Lists = n.Lists := by
  unfold Lists
  rw [a.watches]

theorem behind (a : n.Alike n') {l : Lit} {ps : List Lit} {r : Reason} :
    n'.Behind l ps r ↔ n.Behind l ps r := by
  cases r with
  | clause id => simp only [Behind, a.body]
  | _ => rfl

theorem assigned (a : n.Alike n') {i : Nat} {l : Lit} {r : Reason} :
    n'.Assigned i l r ↔ n.Assigned i l r := by
  constructor <;> rintro ⟨here, above, origin⟩
  · exact ⟨a.trail ▸ here, a.trail ▸ above, a.trail ▸ origin⟩
  · exact ⟨a.trail.symm ▸ here, a.trail.symm ▸ above, a.trail.symm ▸ origin⟩

theorem watched (a : n.Alike n') (w : n.Watched lists) : n'.Watched lists where
  size := by rw [a.watches, a.trail]; exact w.size
  named h := a.slots ▸ w.named h
  first h := w.first (a.body _ ▸ h)
  second h := w.second (a.body _ ▸ h)
  blocker h stored := a.trail ▸ w.blocker h (a.body _ ▸ stored)

/-- What the conditions on trail, reasons and watch lists speak of is the same. -/
theorem wf (a : n.Alike n') (w : n.WF lists) : n'.WF lists where
  trail := a.trail ▸ w.trail
  reasons at_ ne := by
    obtain ⟨ps, behind, before⟩ := w.reasons (a.assigned.mp at_) ne
    rw [a.trail]
    exact ⟨ps, a.behind.mpr behind, before⟩
  distinct h := w.distinct (a.body _ ▸ h)
  watched := a.watched w.watched

/-- Bookkeeping derives nothing. -/
theorem sound (a : n.Alike n') (s : n.Sound f) : n'.Sound f where
  root h := s.root (a.trail ▸ h)
  clauses h := s.clauses (a.body _ ▸ h)
  reasons at_ behind := by
    rw [a.trail]
    exact s.reasons (a.assigned.mp at_) (a.behind.mp behind)
  lessons h := s.lessons (a.lessons h)

/-- Settled levels stay settled, as the literals of clauses are the same. -/
theorem closed {settled : Nat → Prop} (a : n.Alike n') (c : n.Closed settled) :
    n'.Closed settled := fun low left stored => by
  rw [a.trail] at low ⊢
  exact c low left (a.body _ ▸ stored)

theorem processed {due : Lit → ClauseId → Prop} (a : n.Alike n') (p : n.Processed due) :
    n'.Processed due := fun stored watched false_ => by
  rw [a.trail] at false_ ⊢
  exact p (a.body _ ▸ stored) watched false_

theorem represents (a : n.Alike n') (r : n.Represents f) : n'.Represents f :=
  r.transfer (Nat.le_of_eq (congrArg Trail.numVars a.trail.symm)) (fun fact => a.trail ▸ fact)
    fun {id b} stored =>
    ⟨b, (a.body id).trans stored, rfl, fun _ hl => hl⟩

end Alike

/-- Bookkeeping keeps whatever the regime asks for. -/
theorem Alike.fits {n n' : Network} {g : Regime} {lists : Lit → Watcher → Prop}
    {due : Lit → ClauseId → Prop} (a : n.Alike n') (h : n.Fits g lists due) :
    n'.Fits g lists due where
  wf := a.wf h.wf
  sound on := a.sound (h.sound on)
  closed on := a.closed (h.closed on)
  processed on := a.processed (h.processed on)
  represents on := a.represents (h.represents on)

theorem alike_log {n : Network} {m : Message} (quiet : m.lesson? = none) :
    n.Alike (n.log m) :=
  ⟨rfl, rfl, fun _ => rfl, rfl, fun h =>
    (Journal.lessons_log h).resolve_right fun e => by rw [quiet] at e; cases e⟩

theorem alike_report (n : Network) (e : Event) : n.Alike (n.report e) :=
  ⟨rfl, rfl, fun _ => rfl, rfl, fun h => (Journal.lessons_report n.journal e ▸ h :)⟩

/-- A message that only tells of clauses that follow. -/
theorem Fits.log {n : Network} {g : Regime} {lists : Lit → Watcher → Prop}
    {due : Lit → ClauseId → Prop} {m : Message} (h : n.Fits g lists due)
    (told : ∀ c, m.lesson? = some c → g.sound → Entails g.formula c) :
    (n.log m).Fits g lists due where
  wf := by
    have w := h.wf.watched
    refine ⟨h.wf.trail, ?_, h.wf.distinct,
      ⟨w.size, w.named, w.first, w.second, w.blocker⟩⟩
    intro i l r at_ ne
    obtain ⟨ps, behind, before⟩ := h.wf.reasons ⟨at_.here, at_.above, at_.origin⟩ ne
    refine ⟨ps, ?_, before⟩
    cases r <;> exact behind
  sound on := by
    have s := h.sound on
    refine ⟨s.root, s.clauses, ?_, fun inside => ?_⟩
    · intro i l r ps at_ behind
      refine s.reasons ⟨at_.here, at_.above, at_.origin⟩ ?_
      cases r <;> exact behind
    · rcases Journal.lessons_log inside with old | new
      · exact s.lessons old
      · exact told _ new on
  closed on := h.closed on
  processed on := h.processed on
  represents on := h.represents on

/-! ## Assigning -/

/-- What assigning a literal does to the network. -/
structure Enqueued (n : Network) (p : Lit) (r : Reason) (n' : Network) : Prop where
  trail : n.trail.push p r = .ok n'.trail
  db : n'.db = n.db
  watches : n'.watches = n.watches
  lessons : n'.journal.lessons = n.journal.lessons

/-- A literal that is enqueued is assigned, and the observer may be told. -/
theorem enqueued {n n' : Network} {p : Lit} {r : Reason} (h : n.enqueue p r = .ok n') :
    n.Enqueued p r n' := by
  obtain ⟨observed, -, h⟩ := bind_eq_ok.mp h
  obtain ⟨trail, pushed, h⟩ := bind_eq_ok.mp h
  split at h
  · cases h
    exact ⟨pushed, rfl, rfl, rfl⟩
  · cases h
    exact ⟨pushed, rfl, rfl, rfl⟩

namespace Enqueued

variable {n n' : Network} {p : Lit} {r : Reason} {lists : Lit → Watcher → Prop}
  {f : List (List Lit)}

theorem body (e : n.Enqueued p r n') (id : ClauseId) : n'.body? id = n.body? id := by
  unfold body?
  rw [e.db]

theorem behind (e : n.Enqueued p r n') {l : Lit} {ps : List Lit} {s : Reason} :
    n'.Behind l ps s ↔ n.Behind l ps s := by
  cases s with
  | clause id => simp only [Behind, e.body]
  | _ => rfl

theorem lists_eq (e : n.Enqueued p r n') : n'.Lists = n.Lists := by
  unfold Lists
  rw [e.watches]

/-- The variable of the new literal was not assigned. -/
theorem var_ne (e : n.Enqueued p r n') (w : n.trail.WF) {l : Lit} (hl : l ∈ n.trail.lits) :
    l.var ≠ p.var := by
  obtain ⟨read, -⟩ := Trail.push_eq_ok.mp e.trail
  obtain ⟨new, newNeg⟩ := w.unknown read
  intro same
  rcases Lit.eq_or_eq_neg same with rfl | rfl
  · exact new hl
  · exact newNeg hl

/-- Above the root, the literals assigned with a reason are those of before and the new
one. -/
theorem assigned (e : n.Enqueued p r n') (w : n.trail.WF) {i : Nat} {l : Lit} {s : Reason}
    (h : n'.Assigned i l s) : n.Assigned i l s ∨
      (i = n.trail.lits.size ∧ l = p ∧ s = r ∧ 0 < n.trail.level) := by
  obtain ⟨here, above, origin⟩ := h
  obtain ⟨o, read, rfl⟩ := Trail.reasonOf_eq_ok.mp origin
  rw [Trail.origins_push e.trail] at read
  rw [Trail.cut_push e.trail] at above
  rcases (Trail.getElem?_push e.trail).mp here with old | ⟨rfl, rfl⟩
  · have inside := (Array.getElem?_eq_some_iff.mp old).1
    rw [if_neg (e.var_ne w (Array.mem_of_getElem? old))] at read
    refine .inl ⟨old, ?_, Trail.reasonOf_eq_ok.mpr ⟨o, read, rfl⟩⟩
    split at above
    · exact above
    · omega
  · rw [if_pos rfl] at read
    cases read
    refine .inr ⟨rfl, rfl, rfl, ?_⟩
    split at above
    next low => exact low
    next => omega

/-- Above the root, the new literal is assigned with its reason. -/
theorem assigned_new (e : n.Enqueued p r n') (w : n.trail.WF) (high : 0 < n.trail.level) :
    n'.Assigned n.trail.lits.size p r where
  here := (Trail.getElem?_push e.trail).mpr (.inr ⟨rfl, rfl⟩)
  above := by
    rw [Trail.cut_push e.trail, if_pos high]
    exact w.cut_le
  origin := by
    refine Trail.reasonOf_eq_ok.mpr ⟨⟨r, n.trail.level⟩, ?_, rfl⟩
    rw [Trail.origins_push e.trail, if_pos rfl]

/-- A new literal is a fact of the root level only if the solver is there. -/
theorem mem_root (e : n.Enqueued p r n') (w : n.trail.WF) {l : Lit}
    (h : l ∈ n'.trail.upTo 0) : l ∈ n.trail.upTo 0 ∨ (l = p ∧ n.trail.level = 0) := by
  by_cases low : 0 < n.trail.level
  · rw [Trail.upTo_push w e.trail low] at h
    exact .inl h
  · have root : n.trail.level = 0 := by omega
    rw [Trail.upTo_of_le (by rw [Trail.level_push e.trail]; omega), Array.mem_toList_iff,
      Trail.mem_push e.trail] at h
    rw [Trail.upTo_of_le (by omega), Array.mem_toList_iff]
    exact h.imp id fun same => ⟨same, root⟩

/-- The lists of watchers are not touched. -/
theorem watched (e : n.Enqueued p r n') (t : n.trail.WF) (w : n.Watched lists) :
    n'.Watched lists where
  size := by rw [e.watches, Trail.numVars_push e.trail]; exact w.size
  named h := by rw [e.db]; exact w.named h
  first h := w.first (e.body _ ▸ h)
  second h := w.second (e.body _ ▸ h)
  blocker h stored := (w.blocker h (e.body _ ▸ stored)).imp id
    (Trail.upTo_push_subset t e.trail)

/-- A new literal above the root has no reason, or one of assigned variables. -/
theorem wf (e : n.Enqueued p r n') (w : n.WF lists)
    (reason : 0 < n.trail.level → r ≠ .decision → ∃ ps, n.Behind p ps r ∧
      ∀ q ∈ ps, ∃ m ∈ n.trail.lits, m.var = q.var) : n'.WF lists where
  trail := w.trail.push e.trail
  reasons at_ ne := by
    rcases e.assigned w.trail at_ with old | ⟨rfl, rfl, rfl, low⟩
    · obtain ⟨ps, behind, before⟩ := w.reasons old ne
      refine ⟨ps, e.behind.mpr behind, fun q hq => ?_⟩
      obtain ⟨j, m, lt, here, same⟩ := before q hq
      exact ⟨j, m, lt, (Trail.getElem?_push e.trail).mpr (.inl here), same⟩
    · obtain ⟨ps, behind, before⟩ := reason low ne
      refine ⟨ps, e.behind.mpr behind, fun q hq => ?_⟩
      obtain ⟨m, hm, same⟩ := before q hq
      obtain ⟨j, here⟩ := Array.mem_iff_getElem?.mp hm
      exact ⟨j, m, (Array.getElem?_eq_some_iff.mp here).1,
        (Trail.getElem?_push e.trail).mpr (.inl here), same⟩
  distinct h := w.distinct (e.body _ ▸ h)
  watched := e.watched w.trail w.watched

/-- At the root, a new literal has to follow from the formula; above it, its reason
has to. -/
theorem sound (e : n.Enqueued p r n') (w : n.trail.WF) (s : n.Sound f)
    (fact : n.trail.level = 0 → Entails f [p])
    (reason : 0 < n.trail.level → ∀ ps, n.Behind p ps r →
      (∀ q ∈ ps, -q ∈ n.trail.lits) ∧ Entails f (p :: ps)) : n'.Sound f where
  root h := by
    rcases e.mem_root w h with old | ⟨rfl, root⟩
    · exact s.root old
    · exact fact root
  clauses h := s.clauses (e.body _ ▸ h)
  reasons at_ behind := by
    have grow : ∀ {l}, l ∈ n.trail.lits → l ∈ n'.trail.lits := fun h =>
      (Trail.mem_push e.trail).mpr (.inl h)
    rcases e.assigned w at_ with old | ⟨-, rfl, rfl, low⟩
    · obtain ⟨false_, entailed⟩ := s.reasons old (e.behind.mp behind)
      exact ⟨fun q hq => grow (false_ q hq), entailed⟩
    · obtain ⟨false_, entailed⟩ := reason low _ (e.behind.mp behind)
      exact ⟨fun q hq => grow (false_ q hq), entailed⟩
  lessons h := s.lessons (e.lessons ▸ h)

/-- The settled levels are below the one at which the literal is assigned. -/
theorem closed {settled : Nat → Prop} (e : n.Enqueued p r n') (w : n.trail.WF)
    (c : n.Closed settled) : n'.Closed settled := fun low left stored => by
  rw [Trail.level_push e.trail] at low
  rw [Trail.upTo_push w e.trail low]
  exact c low left (e.body _ ▸ stored)

/-- Clauses of which the new literal is one are no longer due. -/
theorem processed {due due' : Lit → ClauseId → Prop} (e : n.Enqueued p r n')
    (w : n.trail.WF) (h : n.Processed due)
    (settles : ∀ {x id c}, due x id → n.body? id = some c → due' x id ∨ p ∈ c.lits) :
    n'.Processed due' := by
  intro id c x stored watched false_
  rw [e.body] at stored
  rw [Trail.head_push e.trail, Trail.take_push e.trail w.head] at false_
  rcases h stored watched false_ with left | ⟨y, hy, true_⟩
  · refine (settles left stored).imp_right fun hp => ⟨p, hp, ?_⟩
    exact (Trail.mem_push e.trail).mpr (.inr rfl)
  · exact .inr ⟨y, hy, (Trail.mem_push e.trail).mpr (.inl true_)⟩

theorem represents (e : n.Enqueued p r n') (w : n.trail.WF) (h : n.Represents f) :
    n'.Represents f :=
  h.transfer (Nat.le_of_eq (Trail.numVars_push e.trail).symm) (Trail.upTo_push_subset w e.trail)
    fun {id b} stored =>
    ⟨b, (e.body id).trans stored, rfl, fun _ hl => hl⟩

/-- Assigning keeps whatever the regime asks for, if the reason has been derived and the clauses
of the literal are no longer due. -/
theorem fits {g : Regime} {due due' : Lit → ClauseId → Prop} (e : n.Enqueued p r n')
    (h : n.Fits g lists due)
    (reason : 0 < n.trail.level → r ≠ .decision → ∃ ps, n.Behind p ps r ∧
      (∀ q ∈ ps, ∃ m ∈ n.trail.lits, m.var = q.var) ∧
      (g.sound → (∀ q ∈ ps, -q ∈ n.trail.lits) ∧ Entails g.formula (p :: ps)))
    (fact : g.sound → n.trail.level = 0 → Entails g.formula [p])
    (settles : ∀ {x id c}, due x id → n.body? id = some c → due' x id ∨ p ∈ c.lits) :
    n'.Fits g lists due' where
  wf := e.wf h.wf fun low ne => by
    obtain ⟨ps, behind, assigned, -⟩ := reason low ne
    exact ⟨ps, behind, assigned⟩
  sound on := e.sound h.wf.trail (h.sound on) (fact on) fun low qs behind => by
    have ne : r ≠ .decision := by rintro rfl; exact behind
    obtain ⟨ps, behind', -, entailed⟩ := reason low ne
    exact behind'.unique behind ▸ entailed on
  closed on := e.closed h.wf.trail (h.closed on)
  processed on := e.processed h.wf.trail (h.processed on) settles
  represents on := e.represents h.wf.trail (h.represents on)

end Enqueued

/-- Only the conditions on the trail and on the clauses matter when the lists are given. -/
theorem Fits.rewatch {n : Network} {g : Regime} {lists : Lit → Watcher → Prop}
    {due : Lit → ClauseId → Prop} {watches : DenseMap Lit (Array Watcher)}
    (h : n.Fits g lists due) (size : watches.size = n.watches.size) :
    { n with watches }.Fits g lists due where
  wf := by
    have w := h.wf.watched
    refine ⟨h.wf.trail, ?_, h.wf.distinct,
      ⟨size.trans w.size, w.named, w.first, w.second, w.blocker⟩⟩
    intro i l r at_ ne
    obtain ⟨ps, behind, before⟩ := h.wf.reasons ⟨at_.here, at_.above, at_.origin⟩ ne
    refine ⟨ps, ?_, before⟩
    cases r <;> exact behind
  sound on := by
    have s := h.sound on
    refine ⟨s.root, s.clauses, ?_, s.lessons⟩
    intro i l r ps at_ behind
    refine s.reasons ⟨at_.here, at_.above, at_.origin⟩ ?_
    cases r <;> exact behind
  closed on := h.closed on
  processed on := h.processed on
  represents on := h.represents on

end Network

end Cdcl
