import Cdcl.Proofs.Success.Upkeep
import Cdcl.Solver.Analysis

/-!
# Networks that differ in places only

Compacting the arena moves clauses.  Two runs that compact at different moments are
followed side by side: as long as both succeed, their states are twins, which differ in
the places of clauses, in the counters of the arena, and in what has been told about
compactions.

* `Jointly` — two computations whose answers are related if both succeed, with
  `Jointly.bind` for a step of both, and `Jointly.same` for one that is the same in both;
* `Arena.Twin`, `Journal.Twin`, `Network.Twin` — what may differ;
* `Network.Apart` — the same, for any relation between journals that is kept when both are
  told the same;
* `Network.Whole` — every live clause is named by a row, and so are the reasons;
* `twin_collect` — compacting a whole network leads to a twin.
-/

namespace Cdcl

/-! ## Two computations -/

section

variable {α β γ : Type}

/-- If both computations succeed, their answers are related. -/
def Jointly (R : α → β → Prop) (x : Except Fault α) (y : Except Fault β) : Prop :=
  ∀ a b, x = .ok a → y = .ok b → R a b

/-- The first parts are related, and the others are the same. -/
def Beside (R : α → β → Prop) (a : α × γ) (b : β × γ) : Prop := R a.1 b.1 ∧ b.2 = a.2

namespace Jointly

variable {δ ε : Type} {R : α → β → Prop} {S : δ → ε → Prop} {x : Except Fault δ}
  {y : Except Fault ε} {f : δ → Except Fault α} {g : ε → Except Fault β}

/-- Two computations that both succeed. -/
theorem ok {a : α} {b : β} (h : R a b) : Jointly R (.ok a) (.ok b) := by
  intro a' b' left right
  cases left
  cases right
  exact h

theorem error {e : Fault} {y : Except Fault β} : Jointly R (.error e) y :=
  fun _ _ failed => nomatch failed

theorem errorRight {e : Fault} {x : Except Fault α} : Jointly R x (.error e) :=
  fun _ _ _ failed => nomatch failed

theorem mono {R' : α → β → Prop} {x : Except Fault α} {y : Except Fault β}
    (weaker : ∀ {a b}, R a b → R' a b) (h : Jointly R x y) : Jointly R' x y :=
  fun a b left right => weaker (h a b left right)

/-- If the first steps keep one relation, and the steps that follow turn it into another, the
whole keeps that one. -/
theorem bind (first : Jointly S x y)
    (next : ∀ a b, S a b → x = .ok a → Jointly R (f a) (g b)) :
    Jointly R (x >>= f) (y >>= g) := by
  intro a b left right
  obtain ⟨c, h, left⟩ := bind_eq_ok.mp left
  obtain ⟨d, h', right⟩ := bind_eq_ok.mp right
  exact next c d (first c d h h') h a b left right

/-- A step that answers with more than the states. -/
theorem step {x : Except Fault (δ × γ)} {y : Except Fault (ε × γ)}
    {f : δ × γ → Except Fault α} {g : ε × γ → Except Fault β}
    (first : Jointly (Beside S) x y)
    (next : ∀ a b c, S a b → x = .ok (a, c) → Jointly R (f (a, c)) (g (b, c))) :
    Jointly R (x >>= f) (y >>= g) := by
  refine bind first fun ⟨a, c⟩ ⟨b, d⟩ both h => ?_
  obtain ⟨related, same⟩ := both
  cases same
  exact next a b c related h

/-- A step that is the same in both. -/
theorem same {g : δ → Except Fault β} (next : ∀ a, x = .ok a → Jointly R (f a) (g a)) :
    Jointly R (x >>= f) (x >>= g) :=
  bind (fun _ _ left right => Except.ok.inj (left.symm.trans right)) fun a b equal h => by
    cases equal
    exact next a h

/-- A step that comes to the same in both. -/
theorem read {y : Except Fault δ} {g : δ → Except Fault β} (equal : y = x)
    (next : ∀ a, x = .ok a → Jointly R (f a) (g a)) : Jointly R (x >>= f) (y >>= g) := by
  rw [equal]
  exact same next

theorem ite {c : Prop} [Decidable c] {x x' : Except Fault α} {y y' : Except Fault β}
    (yes : c → Jointly R x y) (no : ¬c → Jointly R x' y') :
    Jointly R (if c then x else x') (if c then y else y') := by
  split
  · exact yes ‹_›
  · exact no ‹_›

end Jointly

end

/-! ## Arenas -/

namespace Arena

variable {a b c : Arena} {id : ClauseId} {d : Clause}

/-- The clauses are the same, with their names. -/
structure Twin (a b : Arena) : Prop where
  slots : b.slots.size = a.slots.size
  clauses : ∀ id, b.clause? id = a.clause? id

namespace Twin

theorem refl (a : Arena) : a.Twin a := ⟨rfl, fun _ => rfl⟩

theorem symm (t : a.Twin b) : b.Twin a := ⟨t.slots.symm, fun id => (t.clauses id).symm⟩

theorem trans (t : a.Twin b) (u : b.Twin c) : a.Twin c :=
  ⟨u.slots.trans t.slots, fun id => (u.clauses id).trans (t.clauses id)⟩

theorem get (t : a.Twin b) : b.get id = a.get id := by
  rw [get_eq, get_eq, t.clauses]

theorem contains (t : a.Twin b) : b.contains id = a.contains id := by
  rw [contains_eq, contains_eq, t.clauses]

theorem set (t : a.Twin b) : Jointly Twin (a.set id d) (b.set id d) := by
  intro a' b' left right
  refine ⟨(size_set right).trans (t.slots.trans (size_set left).symm), fun j => ?_⟩
  rw [clause?_set left, clause?_set right, t.clauses]

/-- The next name is the same. -/
theorem alloc (t : a.Twin b) : Jointly (Beside Twin) (a.alloc d) (b.alloc d) := by
  intro ⟨a', i⟩ ⟨b', j⟩ left right
  obtain ⟨named, slots⟩ := alloc_eq_ok left
  obtain ⟨named', slots'⟩ := alloc_eq_ok right
  have equal : j = i := by rw [named, named', t.slots]
  refine ⟨⟨?_, fun k => ?_⟩, equal⟩
  · simp only [slots, slots', Array.size_push, t.slots]
  · rw [clause?_alloc left, clause?_alloc right, t.clauses, equal]

theorem free (t : a.Twin b) : Jointly Twin (a.free id) (b.free id) := by
  intro a' b' left right
  refine ⟨(size_free right).trans (t.slots.trans (size_free left).symm), fun j => ?_⟩
  rw [clause?_free left, clause?_free right, t.clauses]

/-- Literals are cut off in both, and how many words are dead does not count. -/
theorem shrink {rest : List Lit} (t : a.Twin b) :
    Jointly Twin (a.shrink id rest) (b.shrink id rest) := by
  refine .read t.get fun c _ => .same fun _ _ => ?_
  exact .bind t.set fun a' b' t' _ => .ok ⟨t'.slots, t'.clauses⟩

end Twin

/-- Compacting loses nothing if every live clause is listed. -/
theorem twin_compact {order : List ClauseId} (h : a.compact order = .ok b)
    (listed : ∀ {id d}, a.clause? id = some d → id ∈ order) : a.Twin b := by
  obtain ⟨size, clauses⟩ := clause?_compact h
  refine ⟨size, fun id => ?_⟩
  rw [clauses]
  split
  · rfl
  next out =>
    cases live : a.clause? id with
    | none => rfl
    | some d => exact absurd (listed live) out

end Arena

/-! ## Journals -/

/-- The message without the place of the clause that it tells of; nothing, if it tells of a
compaction. -/
def Message.unplaced : Message → Option Message
  | .analyze _ level => some (.analyze ⟨0⟩ level)
  | .collected _ _ => none
  | m => some m

/-- Does the event tell of a compaction? -/
def Event.tellsCollection : Event → Bool
  | .collect _ _ => true
  | _ => false

namespace Journal

variable {i j k : Journal} {m m' : Message}

/-- What has been told is the same, but for compactions and the places of clauses. -/
inductive Twin (i : Journal) : Journal → Prop
  | mk {messages : Array Message} {events : Array Event} :
      messages.toList.filterMap Message.unplaced = i.messages.toList.filterMap Message.unplaced →
      events.toList.filter (!·.tellsCollection) = i.events.toList.filter (!·.tellsCollection) →
      Twin i { i with messages, events }

namespace Twin

theorem refl (i : Journal) : i.Twin i := .mk rfl rfl

theorem symm (t : i.Twin j) : j.Twin i := by
  obtain ⟨messages, events⟩ := t
  exact .mk messages.symm events.symm

theorem trans (t : i.Twin j) (u : j.Twin k) : i.Twin k := by
  obtain ⟨messages, events⟩ := t
  obtain ⟨messages', events'⟩ := u
  exact .mk (messages'.trans messages) (events'.trans events)

theorem notify {l : Lit} (t : i.Twin j) : (i.notify l).Twin (j.notify l) := by
  obtain ⟨messages, events⟩ := t
  exact .mk messages events

/-- An event is reported in both. -/
theorem report {e : Event} (t : i.Twin j) : (i.report e).Twin (j.report e) := by
  obtain ⟨messages, events⟩ := t
  unfold Journal.report
  split
  · refine .mk messages ?_
    simp only [Array.toList_push, List.filter_append, events]
  · exact .mk messages events

/-- Messages that are the same but for a place. -/
theorem log (t : i.Twin j) (unplaced : m'.unplaced = m.unplaced)
    (severity : m'.severity = m.severity) : (i.log m).Twin (j.log m') := by
  obtain ⟨messages, events⟩ := t
  simp only [Journal.log, severity]
  split
  · split
    · refine .mk ?_ events
      simp only [Array.toList_push, List.filterMap_append, List.filterMap_cons, messages, unplaced]
    · exact .mk messages events
  · exact .mk messages events

end Twin

/-- A message and an event that tell of a compaction do not count. -/
theorem twin_collected {before after before' after' : Nat} (i : Journal) :
    i.Twin ((i.log (.collected before after)).report (.collect before' after')) := by
  have logged : i.Twin (i.log (.collected before after)) := by
    unfold log
    split
    · split
      · refine .mk ?_ rfl
        simp [Message.unplaced]
      · exact .refl i
    · exact .refl i
  refine logged.trans ?_
  generalize i.log _ = j
  unfold report
  split
  · refine .mk rfl ?_
    simp [Event.tellsCollection]
  · exact .refl j

/-- The relation is kept when both journals are told the same. -/
structure Lockstep (J : Journal → Journal → Prop) : Prop where
  notify : ∀ {i j l}, J i j → J (i.notify l) (j.notify l)
  log : ∀ {i j m}, J i j → J (i.log m) (j.log m)

/-- Twin journals stay twins if they are told the same. -/
theorem Twin.lockstep : Lockstep Twin := ⟨Twin.notify, fun t => t.log rfl rfl⟩

end Journal

/-! ## Networks -/

namespace Network

/-- The networks differ in their arenas, and in their journals as far as the relation lets
them. -/
inductive Apart (J : Journal → Journal → Prop) (n : Network) : Network → Prop
  | mk {arena : Arena} {journal : Journal} : n.db.arena.Twin arena → J n.journal journal →
      Apart J n { n with db := { n.db with arena }, journal }

/-- The networks differ in their arenas and journals only. -/
inductive Twin (n : Network) : Network → Prop
  | mk {arena : Arena} {journal : Journal} : n.db.arena.Twin arena → n.journal.Twin journal →
      Twin n { n with db := { n.db with arena }, journal }

variable {n m k : Network} {J : Journal → Journal → Prop}

theorem Apart.twin (a : n.Apart Journal.Twin m) : n.Twin m := by
  obtain ⟨arena, journal⟩ := a
  exact .mk arena journal

theorem Twin.apart (t : n.Twin m) : n.Apart Journal.Twin m := by
  obtain ⟨arena, journal⟩ := t
  exact .mk arena journal

theorem Apart.trail (a : n.Apart J m) : m.trail = n.trail := by
  cases a
  rfl

theorem Apart.log {x : Message} (j : Journal.Lockstep J) (a : n.Apart J m) :
    (n.log x).Apart J (m.log x) := by
  obtain ⟨arena, journal⟩ := a
  exact .mk arena (j.log journal)

theorem Apart.clause (a : n.Apart J m) {id : ClauseId} : m.clause id = n.clause id := by
  obtain ⟨arena, -⟩ := a
  exact arena.get

namespace Twin

theorem refl (n : Network) : n.Twin n := .mk (.refl _) (.refl _)

theorem symm (t : n.Twin m) : m.Twin n := by
  obtain ⟨arena, journal⟩ := t
  exact .mk arena.symm journal.symm

theorem trans (t : n.Twin m) (u : m.Twin k) : n.Twin k := by
  obtain ⟨arena, journal⟩ := t
  obtain ⟨arena', journal'⟩ := u
  exact .mk (arena.trans arena') (journal.trans journal')

theorem trail (t : n.Twin m) : m.trail = n.trail := t.apart.trail

/-- The rows name the same clauses. -/
theorem ids (t : n.Twin m) : m.ids = n.ids := by
  cases t
  rfl

/-- The literals of a stored clause are the same in both. -/
theorem body (t : n.Twin m) (id : ClauseId) : m.body? id = n.body? id := by
  obtain ⟨arena, -⟩ := t
  unfold body?
  rw [Arena.body?_eq, Arena.body?_eq]
  exact congrArg _ (arena.clauses id)

theorem clause (t : n.Twin m) {id : ClauseId} : m.clause id = n.clause id := t.apart.clause

theorem log {x : Message} (t : n.Twin m) : (n.log x).Twin (m.log x) :=
  (t.apart.log Journal.Twin.lockstep).twin

theorem report {e : Event} (t : n.Twin m) : (n.report e).Twin (m.report e) := by
  obtain ⟨arena, journal⟩ := t
  exact .mk arena journal.report

end Twin

/-- Every live clause is named by a row, and every reason names a live clause. -/
structure Whole (n : Network) : Prop where
  trail : n.trail.WF
  listed : ∀ {id c}, n.body? id = some c → id ∈ n.ids
  named : ∀ {l id}, l ∈ n.trail.lits → n.trail.reasonOf l.var = .ok (.clause id) →
    ∃ c, n.body? id = some c

/-- A network is whole if its twin is, as the places of clauses do not matter. -/
theorem Twin.whole (t : n.Twin m) (w : n.Whole) : m.Whole where
  trail := t.trail ▸ w.trail
  listed stored := t.ids ▸ w.listed (t.body _ ▸ stored)
  named true_ reason := by
    rw [t.trail] at true_ reason
    rw [t.body]
    exact w.named true_ reason

/-- By the invariant a network is whole. -/
theorem Core.whole (core : n.Core) (s : n.view.Sturdy) : n.Whole where
  trail := core.trail
  listed stored := (mem_ids s.indexed).mpr ⟨_, stored⟩
  named true_ reason := by
    obtain ⟨c, stored, -⟩ := s.grounded.named true_ reason
    exact ⟨c, stored⟩

/-- Compacting a whole network changes no clause and no reason. -/
theorem twin_collect (w : n.Whole) (h : n.collect = .ok m) : n.Twin m := by
  obtain ⟨watched, trail, reasons, arena, -, live, compacted, rfl⟩ := collect_eq_ok h
  have kept : trail = n.trail := by
    have still : ∀ {l id}, l ∈ n.trail.lits → n.trail.reasonOf l.var = .ok (.clause id) →
        n.db.arena.contains id = true := fun true_ reason =>
      have ⟨_, stored⟩ := w.named true_ reason
      contains_of_body? stored
    obtain ⟨ids, found, -⟩ := exists_liveReasons w.trail (fun l => Array.mem_toList_iff.mp) still
    exact congrArg Prod.fst (Except.ok.inj (live.symm.trans found))
  subst kept
  refine .mk (Arena.twin_compact compacted fun {id d} live => ?_) (Journal.twin_collected _)
  have stored : n.body? id = some d.body := by
    unfold body?
    rw [Arena.body?_eq, live]
    rfl
  have inside := w.listed stored
  unfold ids at inside
  simp only [List.mem_append] at inside ⊢
  exact inside.elim .inr fun learnt => .inl (.inr learnt)

end Network

end Cdcl
