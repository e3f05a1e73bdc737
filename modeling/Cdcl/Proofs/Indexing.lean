import Cdcl.Proofs.Steps

/-!
# Watch lists, rows and counters

`View.Indexed` says that the clauses are indexed without a flaw.  A stored clause has one
watcher in the list of the negation of each of its first two literals, and no watcher
stands anywhere else; the rows name the stored clauses, each once and according to its
kind; the tallies and the words of the arena are sums over the stored clauses.

* `Indexed.reshape` — a step that keeps the kinds and sizes of the clauses keeps the rows
  and the counters;
* `Step.indexed` — every step keeps the index.
-/

namespace Cdcl

namespace Clause

/-- Counts the clauses of a kind. -/
def countIf (learnt : Bool) (c : Clause) : Nat := if c.learnt = learnt then 1 else 0

/-- Counts the literals of the clauses of a kind. -/
def sizeIf (learnt : Bool) (c : Clause) : Nat := if c.learnt = learnt then c.size else 0

theorem size_eq_of_perm {c c' : Clause} (perm : c'.lits.Perm c.lits) : c'.size = c.size := by
  rw [← length_lits, ← length_lits]
  exact perm.length_eq

/-- A clause whose variables are different watches two literals. -/
theorem first_ne_second {c : Clause} (distinct : (c.lits.map Lit.var).Nodup) :
    c.first ≠ c.second := by
  intro same
  simp [lits, same] at distinct

/-- Literals of a clause are equal if their variables are. -/
theorem eq_of_var {c : Clause} (distinct : (c.lits.map Lit.var).Nodup) {l m : Lit}
    (hl : l ∈ c.lits) (hm : m ∈ c.lits) (same : l.var = m.var) : l = m :=
  List.inj_on_of_nodup_map distinct hl hm same

end Clause

namespace Network

variable {n n' : Network} {id : ClauseId} {c c' : Clause} {l : Lit}

/-- How many watchers a clause is to have in the list of a literal. -/
def share (n : Network) (id : ClauseId) (l : Lit) : Nat :=
  match n.body? id with
  | some c => if -l = c.first ∨ -l = c.second then 1 else 0
  | none => 0

/-- A stored clause is to be watched once at each of its first two literals. -/
theorem share_of_body (stored : n.body? id = some c) :
    n.share id l = if -l = c.first ∨ -l = c.second then 1 else 0 := by
  rw [share, stored]

theorem share_of_none (gone : n.body? id = none) : n.share id l = 0 := by
  rw [share, gone]

theorem share_congr (body : n'.body? id = n.body? id) : n'.share id l = n.share id l := by
  rw [share, share, body]

/-- Clauses come to have other literals in front only by the exchange of the two watched
ones. -/
theorem share_of_watched (stored : n.body? id = some c) (stored' : n'.body? id = some c')
    (same : ∀ x, x = c'.first ∨ x = c'.second ↔ x = c.first ∨ x = c.second) :
    n'.share id l = n.share id l := by
  rw [share_of_body stored, share_of_body stored']
  exact if_congr (same (-l)) rfl rfl

/-- The clauses are the same ones, of the same kinds and sizes. -/
structure SameShapes (n n' : Network) : Prop where
  slots : n'.db.arena.slots.size = n.db.arena.slots.size
  shape : ∀ id, (n'.body? id).map (fun c => (c.learnt, c.size)) =
    (n.body? id).map fun c => (c.learnt, c.size)

theorem SameShapes.of_body (slots : n'.db.arena.slots.size = n.db.arena.slots.size)
    (body : ∀ id, n'.body? id = n.body? id) : n.SameShapes n' :=
  ⟨slots, fun id => by rw [body]⟩

theorem SameShapes.stored (s : n.SameShapes n') (learnt : Bool) (id : ClauseId) :
    (∃ c, n'.body? id = some c ∧ c.learnt = learnt) ↔
      ∃ c, n.body? id = some c ∧ c.learnt = learnt := by
  have shape := s.shape id
  cases h : n.body? id <;> cases h' : n'.body? id <;> simp_all

/-- Counts that go by the kind and the size of clauses agree. -/
theorem SameShapes.total (s : n.SameShapes n') {f : Clause → Nat}
    (plain : ∀ c c' : Clause, c'.learnt = c.learnt → c'.size = c.size → f c' = f c) :
    n'.db.arena.total f = n.db.arena.total f := by
  refine Arena.total_congr s.slots fun id => ?_
  have shape := s.shape id
  unfold body? at shape
  cases h : n.db.arena.body? id with
  | none =>
      cases h' : n'.db.arena.body? id with
      | none => rfl
      | some c' => simp [h, h'] at shape
  | some c =>
      cases h' : n'.db.arena.body? id with
      | none => simp [h, h'] at shape
      | some c' =>
          simp only [h, h', Option.map_some, Option.some.injEq, Prod.mk.injEq] at shape
          exact plain c c' shape.1 shape.2

/-- Exchanging literals leaves the shape of a clause. -/
theorem Rearranged.sameShapes (r : n.Rearranged id c c' n') : n.SameShapes n' where
  slots := r.slots
  shape j := by
    rw [r.body]
    split
    next same => rw [same, r.stored, Option.map_some, Option.map_some, r.learnt,
      Clause.size_eq_of_perm r.perm]
    next => rfl

/-- The two watched literals stay the watched ones when they are turned. -/
theorem Turned.watched_iff {p : Lit} (t : n.Turned p id c c' n')
    (distinct : (c.lits.map Lit.var).Nodup) (true_ : p ∈ n.trail.lits) (x : Lit) :
    x = c'.first ∨ x = c'.second ↔ x = c.first ∨ x = c.second := by
  have apart := Clause.first_ne_second distinct
  have second : -p = c.first ∨ -p = c.second := by
    rcases t.watched (-p) (.inr t.second.symm) with h | h | h
    · exact .inl h
    · exact .inr h
    · exact absurd (by rwa [Lit.neg_neg]) h
  have firstNe := t.firstNe
  rw [t.second]
  rcases t.first with first | first <;> rcases second with second | second <;>
    rw [first] at firstNe ⊢
  · exact absurd second.symm firstNe
  · rw [second]
  · rw [second, or_comm]
  · exact absurd second.symm firstNe

end Network

namespace View

open Network (SameCounts SameShapes)

variable {v v' : View}

/-- The watch lists, the rows and the counters are those of the stored clauses. -/
structure Indexed (v : View) : Prop where
  posted : ∀ l id, ((v.lists l).map Watcher.clause).count id = v.net.share id l
  once : ∀ learnt, (v.rows learnt).Nodup
  listed : ∀ learnt id, id ∈ v.rows learnt ↔ ∃ c, v.net.body? id = some c ∧ c.learnt = learnt
  clauses : ∀ learnt,
    (v.net.tally learnt).clauses = v.net.db.arena.total (Clause.countIf learnt)
  literals : ∀ learnt,
    (v.net.tally learnt).literals = v.net.db.arena.total (Clause.sizeIf learnt)
  words : v.net.db.arena.size = v.net.db.arena.wasted + v.net.db.arena.total Clause.words

namespace Indexed

variable {n : Network} {lists : Lit → List Watcher} {l : Lit} {w : Watcher} {id : ClauseId}
  {c : Clause}

/-- Every watcher is that of a stored clause, of which it watches one of the first two
literals. -/
theorem watching (x : v.Indexed) (inside : w ∈ v.lists l) :
    ∃ c, v.net.body? w.clause = some c ∧ (-l = c.first ∨ -l = c.second) := by
  have counted := x.posted l w.clause
  have positive : 0 < ((v.lists l).map Watcher.clause).count w.clause :=
    List.count_pos_iff.mpr (List.mem_map_of_mem inside)
  cases stored : v.net.body? w.clause with
  | none =>
      rw [Network.share_of_none stored] at counted
      omega
  | some c =>
      refine ⟨c, rfl, ?_⟩
      rw [Network.share_of_body stored] at counted
      by_contra away
      rw [if_neg away] at counted
      omega

/-- A watched literal of a stored clause has a watcher of it. -/
theorem exists_watcher (x : v.Indexed) (stored : v.net.body? id = some c)
    (watched : -l = c.first ∨ -l = c.second) : ∃ w ∈ v.lists l, w.clause = id := by
  have counted := x.posted l id
  rw [Network.share_of_body stored, if_pos watched] at counted
  have inside : id ∈ (v.lists l).map Watcher.clause :=
    List.count_pos_iff.mp (by omega)
  exact List.mem_map.mp inside

/-- The rows name the stored clauses. -/
theorem mem_rows (x : v.Indexed) :
    id ∈ v.rows false ++ v.rows true ↔ ∃ c, v.net.body? id = some c := by
  rw [List.mem_append, x.listed, x.listed, ← exists_or]
  refine exists_congr fun c => ?_
  cases c.learnt <;> simp

/-- No clause is named twice. -/
theorem nodup_rows (x : v.Indexed) : (v.rows false ++ v.rows true).Nodup := by
  refine List.nodup_append.mpr ⟨x.once false, x.once true, fun a inside b inside' same => ?_⟩
  subst same
  obtain ⟨c, stored, kind⟩ := (x.listed false a).mp inside
  obtain ⟨c', stored', kind'⟩ := (x.listed true a).mp inside'
  cases stored.symm.trans stored'
  exact Bool.false_ne_true (kind.symm.trans kind')

/-- Rows and counters need not be looked at again if the shapes are the same. -/
theorem reshape (x : v.Indexed) (shapes : v.net.SameShapes n) (counts : v.net.SameCounts n)
    (posted : ∀ l id, ((lists l).map Watcher.clause).count id = n.share id l) :
    Indexed ⟨n, lists, v.rows⟩ where
  posted := posted
  once := x.once
  listed learnt id := (x.listed learnt id).trans (shapes.stored learnt id).symm
  clauses learnt := by
    rw [counts.tally, x.clauses]
    refine (shapes.total fun c c' kind _ => ?_).symm
    unfold Clause.countIf
    rw [kind]
  literals learnt := by
    rw [counts.tally, x.literals]
    refine (shapes.total fun c c' kind size => ?_).symm
    unfold Clause.sizeIf
    rw [kind, size]
  words := by
    rw [counts.size, counts.wasted, x.words]
    refine congrArg _ (shapes.total fun c c' kind size => ?_).symm
    unfold Clause.words
    rw [kind, size]

/-- Nothing is seen of a step that leaves the clauses alone. -/
theorem frame (x : v.Indexed) (slots : n.db.arena.slots.size = v.net.db.arena.slots.size)
    (body : ∀ id, n.body? id = v.net.body? id) (counts : v.net.SameCounts n) :
    Indexed ⟨n, v.lists, v.rows⟩ :=
  x.reshape (.of_body slots body) counts fun l id =>
    (x.posted l id).trans (Network.share_congr (body id)).symm

theorem frame_db (x : v.Indexed) (db : n.db = v.net.db) : Indexed ⟨n, v.lists, v.rows⟩ :=
  x.frame (by rw [db]) (fun id => by unfold Network.body?; rw [db]) (.of_eq db)

/-- A visit that keeps its watcher keeps the lists exact. -/
theorem turn {c' : Clause} {p b : Lit} {before after : List Watcher} (x : v.Indexed)
    (core : v.net.Core) (t : v.net.Turned p w.clause c c' n) (counts : v.net.SameCounts n)
    (true_ : p ∈ v.net.trail.lits) (here : v.lists p = before ++ w :: after) :
    Indexed ⟨n, Function.update v.lists p (before ++ ⟨w.clause, b⟩ :: after), v.rows⟩ := by
  have watched := t.watched_iff (core.distinct t.stored) true_
  refine x.reshape t.sameShapes counts fun l id => ?_
  have clauses : ((Function.update v.lists p (before ++ ⟨w.clause, b⟩ :: after)) l).map
      Watcher.clause = (v.lists l).map Watcher.clause := by
    by_cases same : l = p
    · subst same
      rw [Function.update_self, here, List.map_append, List.map_append]
      rfl
    · rw [Function.update_of_ne same]
  rw [clauses, x.posted]
  by_cases own : id = w.clause
  · subst own
    exact (Network.share_of_watched t.stored t.body_self watched).symm
  · exact (Network.share_congr (by rw [t.body, if_neg own])).symm

/-- A visit that moves its watcher to another literal keeps the lists exact. -/
theorem move {c' : Clause} {p : Lit} {before after : List Watcher} (x : v.Indexed)
    (core : v.net.Core) (r : v.net.Rearranged w.clause c c' n) (counts : v.net.SameCounts n)
    (firstNe : c'.first ≠ -p) (secondNe : c'.second ≠ -p)
    (first : c'.first = c.first ∨ c'.first = c.second)
    (here : v.lists p = before ++ w :: after) :
    Indexed ⟨n, Function.update (Function.update v.lists p (before ++ after)) (-c'.second)
      (v.lists (-c'.second) ++ [⟨w.clause, c'.first⟩]), v.rows⟩ := by
  have stored := r.stored
  have apart : c'.first ≠ c'.second := by
    refine Clause.first_ne_second ?_
    exact (r.perm.map Lit.var).nodup_iff.mpr (core.distinct stored)
  have old : -p = c.first ∨ -p = c.second := by
    obtain ⟨b, stored', watching⟩ := x.watching (l := p) (w := w) (by rw [here]; simp)
    cases stored.symm.trans stored'
    exact watching
  -- The two literals watched before are the first one and the one that became false.
  have watched : ∀ y, y = c.first ∨ y = c.second ↔ y = c'.first ∨ y = -p := by
    intro y
    grind
  refine x.reshape r.sameShapes counts fun l id => ?_
  have before_ := x.posted l id
  by_cases own : id = w.clause
  · subst own
    rw [Network.share_of_body stored] at before_
    rw [Network.share_of_body r.body_self]
    have flip : -c'.second = l ↔ -l = c'.second :=
      ⟨fun e => by rw [← e, Lit.neg_neg], fun e => by rw [← e, Lit.neg_neg]⟩
    by_cases new : l = -c'.second
    · subst new
      have away : ¬(-(-c'.second) = c.first ∨ -(-c'.second) = c.second) := by
        rw [watched, Lit.neg_neg]
        exact fun e => e.elim (fun e => apart e.symm) secondNe
      rw [if_neg away] at before_
      rw [Function.update_self, List.map_append, List.count_append, before_, Lit.neg_neg,
        if_pos (.inr rfl)]
      simp
    · rw [Function.update_of_ne new]
      by_cases at_ : l = p
      · subst at_
        rw [here, List.map_append, List.map_cons, List.count_append, List.count_cons_self,
          if_pos old] at before_
        rw [Function.update_self, List.map_append, List.count_append, if_neg]
        · omega
        · exact fun e => e.elim (fun e => firstNe e.symm) fun e => secondNe e.symm
      · rw [Function.update_of_ne at_, before_]
        refine if_congr ?_ rfl rfl
        rw [watched]
        have other : -l ≠ -p := fun e => at_ (Lit.neg_inj.mp e)
        have other' : -l ≠ c'.second := fun e => new (flip.mpr e).symm
        exact or_congr Iff.rfl (iff_of_false other other')
  · rw [Network.share_congr (n := v.net) (by rw [r.body, if_neg own]), ← before_]
    have other : w.clause ≠ id := fun e => own e.symm
    by_cases new : l = -c'.second
    · subst new
      rw [Function.update_self, List.map_append, List.count_append, List.map_cons,
        List.count_cons_of_ne other]
      rfl
    · rw [Function.update_of_ne new]
      by_cases at_ : l = p
      · subst at_
        rw [Function.update_self, here, List.map_append, List.map_append, List.map_cons,
          List.count_append, List.count_append, List.count_cons_of_ne other]
      · rw [Function.update_of_ne at_]

/-- A clause that is stored is watched, listed and counted. -/
theorem store (x : v.Indexed) (s : v.net.Stores id c n) (distinct : (c.lits.map Lit.var).Nodup)
    (tally : ∀ learnt, n.tally learnt =
      if learnt = c.learnt then (v.net.tally learnt).add c.size else v.net.tally learnt)
    (size : n.db.arena.size = v.net.db.arena.size + c.words)
    (wasted : n.db.arena.wasted = v.net.db.arena.wasted) :
    Indexed ⟨n, post v.lists id c,
      fun learnt => if learnt = c.learnt then v.rows learnt ++ [id] else v.rows learnt⟩ := by
  have new : ∀ learnt, id ∉ v.rows learnt := fun learnt inside => by
    obtain ⟨b, stored, -⟩ := (x.listed learnt id).mp inside
    rw [s.fresh] at stored
    cases stored
  have total : ∀ f, n.db.arena.total f = v.net.db.arena.total f + f c := fun f =>
    Arena.total_append s.name s.slots s.body
  refine ⟨fun l j => ?_, fun learnt => ?_, fun learnt j => ?_, fun learnt => ?_,
    fun learnt => ?_, ?_⟩
  · have flip : ∀ y : Lit, l = -y ↔ -l = y := fun y =>
      ⟨fun e => by rw [e, Lit.neg_neg], fun e => by rw [← e, Lit.neg_neg]⟩
    have apart := Clause.first_ne_second distinct
    change ((post v.lists id c l).map Watcher.clause).count j = n.share j l
    rw [post, List.map_append, List.map_append, List.count_append, List.count_append, x.posted]
    simp only [flip]
    by_cases own : j = id
    · subst own
      rw [Network.share_of_none s.fresh, Network.share_of_body s.body_new]
      by_cases first : -l = c.first
      · have second : -l ≠ c.second := fun e => apart (first.symm.trans e)
        rw [if_pos first, if_neg second, if_pos (.inl first)]
        simp
      · by_cases second : -l = c.second
        · rw [if_neg first, if_pos second, if_pos (.inr second)]
          simp
        · rw [if_neg first, if_neg second, if_neg (fun e => e.elim first second)]
          rfl
    · have other : id ≠ j := fun e => own e.symm
      have kept : n.share j l = v.net.share j l :=
        Network.share_congr ((s.body j).trans (if_neg own))
      rw [kept]
      split <;> split <;> simp [other]
  · change (if learnt = c.learnt then v.rows learnt ++ [id] else v.rows learnt).Nodup
    split
    · rw [← List.concat_eq_append]
      exact (x.once learnt).concat (new learnt)
    · exact x.once learnt
  · change j ∈ (if learnt = c.learnt then v.rows learnt ++ [id] else v.rows learnt) ↔ _
    rw [s.body]
    by_cases own : j = id
    · subst own
      rw [if_pos rfl]
      split
      next kind => exact iff_of_true (by simp) ⟨c, rfl, kind.symm⟩
      next kind =>
        refine iff_of_false (new learnt) fun ⟨b, e, kind'⟩ => kind ?_
        rw [← kind', Option.some.inj e]
    · rw [if_neg own, ← x.listed]
      split
      · simp [own]
      · exact Iff.rfl
  · rw [tally, total, ← x.clauses, Clause.countIf]
    split
    next kind => rw [if_pos kind.symm]; rfl
    next kind => rw [if_neg fun e => kind e.symm]; rfl
  · rw [tally, total, ← x.literals, Clause.sizeIf]
    split
    next kind => rw [if_pos kind.symm]; rfl
    next kind => rw [if_neg fun e => kind e.symm]; rfl
  · rw [size, wasted, total, x.words, Nat.add_assoc]

/-- Erasing the first watcher of a clause erases its first mention. -/
theorem map_eraseP (ws : List Watcher) (id : ClauseId) :
    (ws.eraseP (·.clause = id)).map Watcher.clause = (ws.map Watcher.clause).erase id := by
  rw [List.erase_eq_eraseP, List.eraseP_map]
  refine congrArg _ (congrArg (List.eraseP · ws) (funext fun w => ?_))
  simp only [Function.comp_apply, beq_eq_decide]
  exact decide_eq_decide.mpr eq_comm

/-- A clause that leaves its lists has no watcher left, and the others keep theirs. -/
theorem count_unpost (x : v.Indexed) (stored : v.net.body? id = some c) (l : Lit)
    (j : ClauseId) : ((unpost v.lists id c l).map Watcher.clause).count j =
      if j = id then 0 else v.net.share j l := by
  have flip : ∀ y : Lit, l = -y ↔ -l = y := fun y =>
    ⟨fun e => by rw [e, Lit.neg_neg], fun e => by rw [← e, Lit.neg_neg]⟩
  have counted := x.posted l j
  unfold unpost
  by_cases own : j = id
  · subst own
    rw [Network.share_of_body stored] at counted
    rw [if_pos rfl]
    simp only [flip]
    split
    next watched =>
      rw [if_pos watched] at counted
      rw [map_eraseP, List.count_erase_self, counted]
    next watched =>
      rw [if_neg watched] at counted
      exact counted
  · have other : id ≠ j := fun e => own e.symm
    rw [if_neg own, ← counted]
    split
    · rw [map_eraseP, List.count_erase_of_ne other.symm]
    · rfl

/-- A clause that goes is no longer watched, listed or counted. -/
theorem drop {learnt : Bool} {before after : List ClauseId} (x : v.Indexed)
    (d : v.net.Drops id c n) (here : v.rows learnt = before ++ id :: after) :
    Indexed ⟨n, unpost v.lists id c, Function.update v.rows learnt (before ++ after)⟩ := by
  have kind : c.learnt = learnt := by
    obtain ⟨b, stored, kind⟩ := (x.listed learnt id).mp (by rw [here]; simp)
    cases d.stored.symm.trans stored
    exact kind
  have once := x.once learnt
  rw [here] at once
  have gone : id ∉ before ++ after := (List.nodup_middle.mp once).notMem
  have total : ∀ f, n.db.arena.total f + f c = v.net.db.arena.total f := fun f => by
    have replaced := Arena.total_replace (f := f) d.slots fun j (other : j ≠ id) =>
      (d.body j).trans (if_neg other)
    have stored : v.net.db.arena.body? id = some c := d.stored
    have none_ : n.db.arena.body? id = none := (d.body id).trans (if_pos rfl)
    rw [stored, none_] at replaced
    exact replaced
  refine ⟨fun l j => ?_, fun b => ?_, fun b j => ?_, fun b => ?_, fun b => ?_, ?_⟩
  · refine (x.count_unpost d.stored l j).trans ?_
    by_cases own : j = id
    · subst own
      rw [if_pos rfl, Network.share_of_none ((d.body j).trans (if_pos rfl))]
    · rw [if_neg own, Network.share_congr ((d.body j).trans (if_neg own))]
  · change (Function.update v.rows learnt (before ++ after) b).Nodup
    by_cases same : b = learnt
    · subst same
      rw [Function.update_self]
      exact (List.nodup_middle.mp once).of_cons
    · rw [Function.update_of_ne same]
      exact x.once b
  · change j ∈ Function.update v.rows learnt (before ++ after) b ↔ _
    rw [d.body]
    by_cases same : b = learnt
    · subst same
      rw [Function.update_self]
      by_cases own : j = id
      · subst own
        rw [if_pos rfl]
        exact iff_of_false gone (by simp)
      · rw [if_neg own, ← x.listed, here]
        simp [own]
    · rw [Function.update_of_ne same, x.listed]
      by_cases own : j = id
      · subst own
        rw [if_pos rfl]
        refine iff_of_false (fun ⟨b', stored, kind'⟩ => same ?_) (by simp)
        cases d.stored.symm.trans stored
        exact kind'.symm.trans kind
      · rw [if_neg own]
  · have tally := x.clauses b
    rw [← total, d.tally, Clause.countIf] at tally
    split at tally
    next e =>
      rw [if_pos e.symm] at tally
      exact Nat.add_right_cancel tally
    next e =>
      rw [if_neg fun h => e h.symm] at tally
      exact tally
  · have tally := x.literals b
    rw [← total, d.tally, Clause.sizeIf] at tally
    split at tally
    next e =>
      rw [if_pos e.symm] at tally
      exact Nat.add_right_cancel tally
    next e =>
      rw [if_neg fun h => e h.symm] at tally
      exact tally
  · rw [d.words, d.wasted, x.words, ← total]
    change _ = _ + _ + n.db.arena.total Clause.words
    omega

/-- A clause that is trimmed is counted for fewer literals. -/
theorem trim {rest : List Lit} (x : v.Indexed) (t : v.net.Trims id c rest n) :
    Indexed ⟨n, v.lists, v.rows⟩ := by
  have total : ∀ f, n.db.arena.total f + f c =
      v.net.db.arena.total f + f { c with rest } := fun f => by
    have replaced := Arena.total_replace (f := f) t.slots fun j (other : j ≠ id) =>
      (t.body j).trans (if_neg other)
    have stored : v.net.db.arena.body? id = some c := t.stored
    have stored' : n.db.arena.body? id = some { c with rest } := (t.body id).trans (if_pos rfl)
    rw [stored, stored'] at replaced
    exact replaced
  have shorter := t.shorter
  refine ⟨fun l j => ?_, x.once, fun b j => ?_, fun b => ?_, fun b => ?_, ?_⟩
  · refine (x.posted l j).trans ?_
    by_cases own : j = id
    · subst own
      rw [Network.share_of_body t.stored, Network.share_of_body ((t.body j).trans (if_pos rfl))]
    · exact (Network.share_congr ((t.body j).trans (if_neg own))).symm
  · rw [x.listed, t.body]
    by_cases own : j = id
    · subst own
      rw [if_pos rfl, t.stored]
      simp
    · rw [if_neg own]
  · have tally := x.clauses b
    have sum := total (Clause.countIf b)
    rw [t.tally] at tally
    have same : Clause.countIf b { c with rest } = Clause.countIf b c := rfl
    rw [same] at sum
    rw [Nat.add_right_cancel sum, ← tally]
    split <;> rfl
  · have tally := x.literals b
    have sum := total (Clause.sizeIf b)
    rw [t.tally] at tally
    unfold Clause.sizeIf at sum
    change n.db.arena.total (Clause.sizeIf b) + _ = v.net.db.arena.total (Clause.sizeIf b) + _
      at sum
    split at tally
    next e =>
      rw [if_pos e.symm, if_pos e.symm] at sum
      simp only [Clause.size] at sum tally
      change (n.tally b).literals = n.db.arena.total (Clause.sizeIf b)
      omega
    next e =>
      rw [if_neg fun h => e h.symm, if_neg fun h => e h.symm] at sum
      exact tally.trans sum.symm
  · have sum := total Clause.words
    have words := x.words
    rw [t.words, t.wasted]
    simp only [Clause.words, Clause.size] at sum
    change _ = _ + _ + n.db.arena.total Clause.words
    change n.db.arena.total Clause.words + _ = v.net.db.arena.total Clause.words + _ at sum
    omega

/-- Every stored clause is watched, so compacting loses none. -/
theorem body?_compact (x : v.Indexed) (k : v.net.Compacts v.lists n) (id : ClauseId) :
    n.body? id = v.net.body? id := by
  cases stored : v.net.body? id with
  | none =>
      cases stored' : n.body? id with
      | none => rfl
      | some b => exact absurd ((k.kept stored').symm.trans stored) (by simp)
  | some b =>
      obtain ⟨w, inside, name⟩ := x.exists_watcher (l := -b.first) stored
        (.inl (Lit.neg_neg _))
      exact k.watched stored inside name

/-- Compacting leaves no dead word, and keeps every clause. -/
theorem compact (x : v.Indexed) (k : v.net.Compacts v.lists n) :
    Indexed ⟨n, v.lists, v.rows⟩ := by
  have body := x.body?_compact k
  refine ⟨fun l id => (x.posted l id).trans (Network.share_congr (body id)).symm, x.once,
    fun b id => by rw [x.listed, body], fun b => ?_, fun b => ?_, ?_⟩
  · rw [k.tally, x.clauses]
    exact (Arena.total_congr k.slots fun id => congrArg _ (body id)).symm
  · rw [k.tally, x.literals]
    exact (Arena.total_congr k.slots fun id => congrArg _ (body id)).symm
  · rw [k.words, k.wasted, Nat.zero_add]

end Indexed

/-- Every step keeps lists, rows and counters exact. -/
theorem Step.indexed (h : v.Step v') (core : v.net.Core) (x : v.Indexed) : v'.Indexed := by
  cases h with
  | steady s => exact x.frame s.slots s.body s.counts
  | reorder perm =>
      exact ⟨x.posted, fun learnt => (perm learnt).nodup_iff.mpr (x.once learnt),
        fun learnt id => (perm learnt).mem_iff.trans (x.listed learnt id), x.clauses,
        x.literals, x.words⟩
  | turn t counts true_ here => exact x.turn core t counts true_ here
  | move r counts firstNe secondNe first here =>
      exact x.move core r counts firstNe secondNe first here
  | imply _ e => exact x.frame_db e.db
  | lead _ e => exact x.frame_db e.db
  | openLevel => exact x.frame_db rfl
  | back b => exact x.frame_db b.db
  | store s _ distinct _ tally size wasted _ => exact x.store s distinct tally size wasted
  | drop d here => exact x.drop d here
  | trim t => exact x.trim t
  | compact k => exact x.compact k
  | addVar => exact x.frame_db rfl

end View

end Cdcl
