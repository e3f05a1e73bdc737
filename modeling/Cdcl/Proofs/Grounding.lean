import Cdcl.Proofs.Indexing

/-!
# Where reasons come from

`View.Ranged` says that clauses and watchers mention variables of the network only.
`View.Grounded` says that reasons have their ground: a clause that is named as the reason
of a literal is stored and has that literal in front, the literals that were copied into
a reason are those of a stored problem clause, and a literal without a reason is the first
one of its level.

* `Grounded.transfer` — what a step may do to reasons and clauses;
* `Step.ranged`, `Step.grounded` — every step keeps both.
-/

namespace Cdcl

/-- The literals that were copied into a reason. -/
def Reason.copied : Reason → Option (List Lit)
  | .binary a => some [a]
  | .ternary a b => some [a, b]
  | _ => none

/-- The literals of a reason are copied from problem clauses only. -/
theorem Network.copied_reasonFrom {id : ClauseId} {c : Clause} {ps : List Lit}
    (h : (reasonFrom id c).copied = some ps) : c.learnt = false ∧ c.premises = ps := by
  unfold reasonFrom at h
  split at h
  · cases h
  next kind =>
    refine ⟨by simpa using kind, ?_⟩
    unfold Clause.premises
    split at h
    next rest => rw [rest]; exact Option.some.inj h
    next third rest => rw [rest]; exact Option.some.inj h
    next => cases h

theorem Network.reasonFrom_eq_clause {id j : ClauseId} {c : Clause}
    (h : reasonFrom id c = .clause j) : id = j := by
  unfold reasonFrom at h
  split at h
  · exact Reason.clause.inj h
  · split at h
    · cases h
    · cases h
    · exact Reason.clause.inj h

theorem Network.reasonFrom_ne_decision {id : ClauseId} {c : Clause} :
    reasonFrom id c ≠ .decision := by
  unfold reasonFrom
  split
  · exact fun h => nomatch h
  · split <;> exact fun h => nomatch h

namespace View

open Network (not_assigned_of_root)

variable {v v' : View} {n : Network}

/-! ## Variables -/

/-- Every variable that occurs is one of the network. -/
structure Ranged (v : View) : Prop where
  clauses : ∀ {id c}, v.net.body? id = some c → ∀ l ∈ c.lits,
    l.var.index < v.net.trail.numVars
  blockers : ∀ {l w}, w ∈ v.lists l → w.blocker.var.index < v.net.trail.numVars

/-- The watchers of a clause that is stored have its literals as blockers. -/
theorem mem_post {lists : Lit → List Watcher} {id : ClauseId} {c : Clause} {l : Lit}
    {w : Watcher} (h : w ∈ post lists id c l) : w ∈ lists l ∨ w.blocker ∈ c.lits := by
  unfold post at h
  rcases List.mem_append.mp h with h | h
  · rcases List.mem_append.mp h with h | h
    · exact .inl h
    · split at h
      · rw [List.mem_singleton.mp h]; exact .inr c.second_mem
      · cases h
  · split at h
    · rw [List.mem_singleton.mp h]; exact .inr c.first_mem
    · cases h

/-- Taking a clause out of its lists adds no watcher. -/
theorem mem_unpost {lists : Lit → List Watcher} {id : ClauseId} {c : Clause} {l : Lit}
    {w : Watcher} (h : w ∈ unpost lists id c l) : w ∈ lists l := by
  unfold unpost at h
  split at h
  · exact List.mem_of_mem_eraseP h
  · exact h

/-- Writing one list puts watchers there only. -/
theorem mem_update {lists : Lit → List Watcher} {p l : Lit} {ws : List Watcher} {w : Watcher}
    (h : w ∈ Function.update lists p ws l) : w ∈ ws ∨ w ∈ lists l := by
  by_cases same : l = p
  · subst same
    rw [Function.update_self] at h
    exact .inl h
  · rw [Function.update_of_ne same] at h
    exact .inr h

/-- Variables stay, and so do clauses, but for the order of their literals. -/
theorem Ranged.transfer {lists : Lit → List Watcher} {rows : Bool → List ClauseId}
    (r : v.Ranged) (vars : v.net.trail.numVars ≤ n.trail.numVars)
    (clauses : ∀ {id c'}, n.body? id = some c' →
      ∃ c, v.net.body? id = some c ∧ ∀ l ∈ c'.lits, l ∈ c.lits)
    (blockers : ∀ {l w}, w ∈ lists l →
      (∃ l', w ∈ v.lists l') ∨ ∃ id c, v.net.body? id = some c ∧ w.blocker ∈ c.lits) :
    Ranged ⟨n, lists, rows⟩ where
  clauses stored l hl := by
    obtain ⟨c, old, sub⟩ := clauses stored
    exact Nat.lt_of_lt_of_le (r.clauses old l (sub l hl)) vars
  blockers inside := by
    rcases blockers inside with ⟨_, old⟩ | ⟨_, _, stored, mem⟩
    · exact Nat.lt_of_lt_of_le (r.blockers old) vars
    · exact Nat.lt_of_lt_of_le (r.clauses stored _ mem) vars

/-- Exchanging literals mentions no new variable. -/
theorem Ranged.rearranged {id : ClauseId} {c c' : Clause} {lists : Lit → List Watcher}
    (r : v.Ranged) (re : v.net.Rearranged id c c' n)
    (blockers : ∀ {l w}, w ∈ lists l → (∃ l', w ∈ v.lists l') ∨ w.blocker ∈ c'.lits) :
    Ranged ⟨n, lists, v.rows⟩ := by
  refine r.transfer (Nat.le_of_eq (by rw [re.trail])) (fun stored => ?_) fun inside => ?_
  · rcases re.body_cases stored with ⟨rfl, rfl⟩ | old
    · exact ⟨c, re.stored, fun l hl => re.perm.mem_iff.mp hl⟩
    · exact ⟨_, old, fun _ h => h⟩
  · exact (blockers inside).imp_right fun mem =>
      ⟨id, c, re.stored, re.perm.mem_iff.mp mem⟩

theorem mem_here {p : Lit} {w w' : Watcher} {before after : List Watcher}
    (here : v.lists p = before ++ w :: after) (inside : w' ∈ before ∨ w' ∈ after) :
    w' ∈ v.lists p := by
  rw [here, List.mem_append, List.mem_cons]
  exact inside.imp_right .inr

/-- Every step mentions variables of the network only. -/
theorem Step.ranged (h : v.Step v') (r : v.Ranged) : v'.Ranged := by
  have same : ∀ {m : Network} {lists : Lit → List Watcher} {rows : Bool → List ClauseId},
      v.net.trail.numVars ≤ m.trail.numVars →
      (∀ {id b}, m.body? id = some b → v.net.body? id = some b) →
      (∀ {l w}, w ∈ lists l → w ∈ v.lists l) → Ranged ⟨m, lists, rows⟩ := fun vars body less =>
    r.transfer vars (fun stored => ⟨_, body stored, fun _ h => h⟩) fun inside =>
      .inl ⟨_, less inside⟩
  cases h with
  | steady s =>
      have vars : v.net.trail.numVars ≤ _ := Nat.le_of_eq (congrArg DenseMap.size s.values.symm)
      exact same vars (fun stored => s.body _ ▸ stored) id
  | reorder => exact same (Nat.le_refl _) id id
  | turn t _ _ here mem =>
      refine r.rearranged t.toRearranged fun inside => ?_
      rcases mem_update inside with inside | inside
      · rcases List.mem_append.mp inside with inside | inside
        · exact .inl ⟨_, mem_here here (.inl inside)⟩
        · rcases List.mem_cons.mp inside with rfl | inside
          · exact .inr mem
          · exact .inl ⟨_, mem_here here (.inr inside)⟩
      · exact .inl ⟨_, inside⟩
  | move re _ _ _ _ here =>
      refine r.rearranged re fun inside => ?_
      rcases mem_update inside with inside | inside
      · rcases List.mem_append.mp inside with inside | inside
        · exact .inl ⟨_, inside⟩
        · rw [List.mem_singleton.mp inside]
          exact .inr (Clause.first_mem _)
      · rcases mem_update inside with inside | inside
        · exact .inl ⟨_, mem_here here (List.mem_append.mp inside)⟩
        · exact .inl ⟨_, inside⟩
  | imply _ e =>
      exact same (Nat.le_of_eq (Trail.numVars_push e.trail).symm) (fun h => e.body _ ▸ h) id
  | lead _ e =>
      exact same (Nat.le_of_eq (Trail.numVars_push e.trail).symm) (fun h => e.body _ ▸ h) id
  | openLevel => exact same (Nat.le_refl _) id id
  | back b => exact same (Nat.le_of_eq b.trail.sizes.symm) (fun h => b.body _ ▸ h) id
  | store s _ _ known =>
      have vars := congrArg Trail.numVars s.trail
      refine ⟨fun stored l hl => ?_, fun inside => ?_⟩
      · refine Nat.lt_of_lt_of_eq ?_ vars.symm
        rcases s.body_cases stored with ⟨-, rfl⟩ | old
        · exact known l hl
        · exact r.clauses old l hl
      · refine Nat.lt_of_lt_of_eq ?_ vars.symm
        rcases mem_post inside with old | mem
        · exact r.blockers old
        · exact known _ mem
  | drop d _ =>
      refine same (Nat.le_of_eq (congrArg DenseMap.size d.trail.values.symm)) (fun stored => ?_)
        mem_unpost
      rw [d.body] at stored
      split at stored
      · cases stored
      · exact stored
  | trim t =>
      refine r.transfer (Nat.le_of_eq (by rw [t.trail])) (fun stored => ?_) fun inside =>
        .inl ⟨_, inside⟩
      rw [t.body] at stored
      split at stored
      next own =>
        cases stored
        exact ⟨_, own ▸ t.stored, t.trimmed.sub⟩
      next => exact ⟨_, stored, fun _ h => h⟩
  | compact k =>
      exact same (Nat.le_of_eq (congrArg DenseMap.size k.trail.values.symm)) k.kept id
  | addVar fresh =>
      refine same ?_ id id
      change _ ≤ (Trail.addVar _ _).numVars
      rw [Trail.numVars_addVar fresh]
      exact Nat.le_succ _

/-! ## Reasons -/

/-- Reasons come from stored clauses, and decisions begin levels. -/
structure Grounded (v : View) : Prop where
  named : ∀ {l id}, l ∈ v.net.trail.lits → v.net.trail.reasonOf l.var = .ok (.clause id) →
    ∃ c, v.net.body? id = some c ∧ c.first = l
  sourced : ∀ {i l r ps}, v.net.Assigned i l r → r.copied = some ps →
    ∃ id c, v.net.body? id = some c ∧ c.learnt = false ∧ c.lits.Perm (l :: ps)
  led : ∀ {i l}, v.net.Assigned i l .decision → ∃ k : Nat, v.net.trail.marks[k]? = some i

namespace Grounded

variable {lists : Lit → List Watcher} {rows : Bool → List ClauseId}

/-- No reason is new, and the clauses behind them stay. -/
theorem transfer (g : v.Grounded)
    (reasons : ∀ {l id}, l ∈ n.trail.lits → n.trail.reasonOf l.var = .ok (.clause id) →
      l ∈ v.net.trail.lits ∧ v.net.trail.reasonOf l.var = .ok (.clause id))
    (assigned : ∀ {i l r}, n.Assigned i l r → v.net.Assigned i l r)
    (named : ∀ {id c}, v.net.body? id = some c → c.first ∈ n.trail.lits →
      n.trail.reasonOf c.first.var = .ok (.clause id) → ∃ c', n.body? id = some c' ∧
        c'.first = c.first)
    (sources : ∀ {i l r id c}, n.Assigned i l r → v.net.body? id = some c → c.learnt = false →
      ∃ c', n.body? id = some c' ∧ c'.learnt = false ∧ c'.lits.Perm c.lits)
    (marks : ∀ {i l} {k : Nat}, n.Assigned i l .decision → v.net.trail.marks[k]? = some i →
      ∃ k : Nat, n.trail.marks[k]? = some i) : Grounded ⟨n, lists, rows⟩ where
  named {l id} inside reason := by
    obtain ⟨old, reason'⟩ := reasons inside reason
    obtain ⟨c, stored, rfl⟩ := g.named old reason'
    exact named stored inside reason
  sourced at_ copied := by
    obtain ⟨id, c, stored, kind, perm⟩ := g.sourced (assigned at_) copied
    obtain ⟨c', stored', kind', perm'⟩ := sources at_ stored kind
    exact ⟨id, c', stored', kind', perm'.trans perm⟩
  led at_ := by
    obtain ⟨k, mark⟩ := g.led (assigned at_)
    exact marks at_ mark

/-- The same trail, with all clauses that may be behind a reason. -/
theorem sameTrail (g : v.Grounded) (trail : n.trail = v.net.trail)
    (named : ∀ {id c}, v.net.body? id = some c → c.first ∈ v.net.trail.lits →
      v.net.trail.reasonOf c.first.var = .ok (.clause id) → ∃ c', n.body? id = some c' ∧
        c'.first = c.first)
    (sources : ∀ {i l r id c}, v.net.Assigned i l r → v.net.body? id = some c →
      c.learnt = false → ∃ c', n.body? id = some c' ∧ c'.learnt = false ∧ c'.lits.Perm c.lits) :
    Grounded ⟨n, lists, rows⟩ := by
  have assigned : ∀ {i l r}, n.Assigned i l r → v.net.Assigned i l r := fun at_ =>
    ⟨trail ▸ at_.here, trail ▸ at_.above, trail ▸ at_.origin⟩
  exact g.transfer (fun inside reason => ⟨trail ▸ inside, trail ▸ reason⟩) assigned
    (fun stored inside reason => named stored (trail ▸ inside) (trail ▸ reason))
    (fun at_ => sources (assigned at_)) fun _ mark => ⟨_, trail ▸ mark⟩

/-- A clause whose literals are exchanged keeps its first one, if it is a reason. -/
theorem rearranged {id : ClauseId} {c c' : Clause} (g : v.Grounded)
    (r : v.net.Rearranged id c c' n) : Grounded ⟨n, lists, rows⟩ := by
  refine g.sameTrail r.trail (fun {j b} stored inside _ => ?_) fun {_ _ _ j b} _ stored kind => ?_
  · obtain ⟨b', stored', -, -, same⟩ := r.body_old stored
    refine ⟨b', stored', ?_⟩
    rcases same with rfl | away
    · rfl
    · exact absurd inside away
  · obtain ⟨b', stored', perm, kind', -⟩ := r.body_old stored
    exact ⟨b', stored', kind'.trans kind, perm⟩

/-- A literal is assigned, for a reason with a ground. -/
theorem enqueued {p : Lit} {r : Reason} (g : v.Grounded) (w : v.net.trail.WF)
    (e : v.net.Enqueued p r n)
    (named : ∀ id, r = .clause id → ∃ c, v.net.body? id = some c ∧ c.first = p)
    (sourced : ∀ ps, r.copied = some ps →
      ∃ id c, v.net.body? id = some c ∧ c.learnt = false ∧ c.lits.Perm (p :: ps))
    (led : 0 < v.net.trail.level → r = .decision →
      ∃ k : Nat, v.net.trail.marks[k]? = some v.net.trail.lits.size) :
    Grounded ⟨n, lists, rows⟩ where
  named {l id} inside reason := by
    change ∃ c, n.body? id = some c ∧ _
    rw [e.body]
    obtain ⟨o, read, why⟩ := Trail.reasonOf_eq_ok.mp reason
    rw [Trail.origins_push e.trail] at read
    rcases (Trail.mem_push e.trail).mp inside with old | rfl
    · rw [if_neg (e.var_ne w old)] at read
      exact g.named old (Trail.reasonOf_eq_ok.mpr ⟨o, read, why⟩)
    · rw [if_pos rfl] at read
      cases read
      exact named id why
  sourced {i l s ps} at_ copied := by
    change ∃ id c, n.body? id = some c ∧ _
    simp only [e.body]
    rcases e.assigned w at_ with old | ⟨-, rfl, rfl, -⟩
    · exact g.sourced old copied
    · exact sourced ps copied
  led {i l} at_ := by
    change ∃ k : Nat, n.trail.marks[k]? = some i
    rw [Trail.marks_push e.trail]
    rcases e.assigned w at_ with old | ⟨rfl, -, why, high⟩
    · exact g.led old
    · exact led high why.symm

/-- The literals that are left have the reasons that they had. -/
theorem back {k : Nat} (g : v.Grounded) (w : v.net.trail.WF) (b : v.net.BackedTo k n) :
    Grounded ⟨n, lists, rows⟩ := by
  have old : ∀ {l}, l ∈ n.trail.lits → l ∈ v.net.trail.lits := fun inside =>
    Trail.mem_of_mem_upTo (b.trail.mem_iff.mp inside)
  refine g.transfer (fun inside reason => ⟨old inside, ?_⟩) (fun at_ => (b.assigned w at_).2)
    (fun stored _ _ => ⟨_, (b.body _).trans stored, rfl⟩)
    (fun _ stored kind => ⟨_, (b.body _).trans stored, kind, .refl _⟩)
    fun {i l j} at_ mark => ⟨j, ?_⟩
  · unfold Trail.reasonOf at reason ⊢
    rwa [b.trail.origins] at reason
  · -- The mark lies below the cut, so its level is one of those that are kept.
    have low := (b.assigned w at_).1
    have cut : v.net.trail.cut j = i := by unfold Trail.cut; rw [mark]; rfl
    have inside : j < k := by
      by_contra high
      have := w.sorted (Nat.le_of_not_lt high)
      omega
    change n.trail.marks[j]? = some i
    rw [b.trail.marks, ← Array.getElem?_toList, Array.toList_shrink,
      List.getElem?_take_of_lt inside, Array.getElem?_toList]
    exact mark

/-- A clause that goes is the reason of no literal, unless its reason is forgotten with it. -/
theorem drop {id : ClauseId} {c : Clause} (g : v.Grounded) (d : v.net.Drops id c n) :
    Grounded ⟨n, lists, rows⟩ := by
  have others : ∀ {j b}, j ≠ id → v.net.body? j = some b → n.body? j = some b :=
    fun other stored => (d.body _).trans ((if_neg other).trans stored)
  have lits := d.trail.lits
  have released : ∀ {l}, l ∈ n.trail.lits → n.trail.reasonOf l.var ≠ .ok (.clause id) := by
    intro l inside reason
    -- The reason was named before, as nothing but decisions has come in.
    obtain ⟨o', read', why'⟩ := Trail.reasonOf_eq_ok.mp reason
    obtain ⟨o, read, -, same⟩ := d.trail.origins read'
    have old : v.net.trail.reasonOf l.var = .ok (.clause id) := by
      refine Trail.reasonOf_eq_ok.mpr ⟨o, read, ?_⟩
      rcases same with same | same
      · rw [← same, why']
      · rw [same] at why'
        cases why'
    obtain ⟨b, stored, first⟩ := g.named (lits ▸ inside) old
    cases d.stored.symm.trans stored
    exact d.released l (lits ▸ inside) first reason
  have inherit : ∀ {l j}, l ∈ n.trail.lits → n.trail.reasonOf l.var = .ok (.clause j) →
      v.net.trail.reasonOf l.var = .ok (.clause j) := by
    intro l j inside reason
    obtain ⟨o', read', why'⟩ := Trail.reasonOf_eq_ok.mp reason
    obtain ⟨o, read, -, same⟩ := d.trail.origins read'
    refine Trail.reasonOf_eq_ok.mpr ⟨o, read, ?_⟩
    rcases same with same | same
    · rw [← same, why']
    · rw [same] at why'
      cases why'
  have level : n.trail.level = v.net.trail.level := d.trail.level
  have above : ∀ {i l r}, n.Assigned i l r → n.trail = v.net.trail ∧ c.learnt = true := by
    intro i l r at_
    rcases d.root with root | same
    · exact absurd at_ (not_assigned_of_root (level.trans root))
    · exact same
  refine g.transfer (fun inside reason => ⟨lits ▸ inside, inherit inside reason⟩)
    (fun at_ => ?_) (fun {j b} stored inside reason => ⟨b, others ?_ stored, rfl⟩)
    (fun {_ _ _ j b} at_ stored kind => ⟨b, others ?_ stored, kind, .refl _⟩)
    fun at_ mark => ⟨_, (above at_).1 ▸ mark⟩
  · obtain ⟨trail, -⟩ := above at_
    exact ⟨trail ▸ at_.here, trail ▸ at_.above, trail ▸ at_.origin⟩
  · rintro rfl
    exact released inside reason
  · rintro rfl
    cases d.stored.symm.trans stored
    rw [(above at_).2] at kind
    cases kind

/-- A clause that is trimmed still has its first literal, and at the root level no premises
count. -/
theorem trim {id : ClauseId} {c : Clause} {rest : List Lit} (g : v.Grounded)
    (t : v.net.Trims id c rest n) : Grounded ⟨n, lists, rows⟩ := by
  refine g.sameTrail t.trail (fun {j b} stored _ _ => ?_) fun at_ => ?_
  · by_cases own : j = id
    · subst own
      cases t.stored.symm.trans stored
      exact ⟨_, (t.body j).trans (if_pos rfl), rfl⟩
    · exact ⟨b, (t.body j).trans ((if_neg own).trans stored), rfl⟩
  · exact absurd at_ (not_assigned_of_root t.root)

/-- Compacting loses no clause that is a reason. -/
theorem compact (g : v.Grounded) (x : v.Indexed) (k : v.net.Compacts v.lists n) :
    Grounded ⟨n, lists, rows⟩ := by
  have body := x.body?_compact k
  have lits := k.trail.lits
  have marks := k.trail.marks
  -- Every reason on the trail has its clause, so none is forgotten.
  have reasons : ∀ {l r}, l ∈ n.trail.lits → n.trail.reasonOf l.var = .ok r →
      v.net.trail.reasonOf l.var = .ok r := by
    intro l r inside reason
    obtain ⟨o', read', -⟩ := Trail.reasonOf_eq_ok.mp reason
    obtain ⟨o, read, -, -⟩ := k.trail.origins read'
    have old : v.net.trail.reasonOf l.var = .ok o.reason := Trail.reasonOf_eq_ok.mpr ⟨o, read, rfl⟩
    have kept := k.reasons l (lits ▸ inside) o.reason (fun id why => ?_) old
    · rw [old, ← kept, reason]
    · obtain ⟨c, stored, -⟩ := g.named (lits ▸ inside) (why ▸ old)
      exact ⟨c, stored⟩
  refine g.transfer (fun inside reason => ⟨lits ▸ inside, reasons inside reason⟩) (fun at_ => ?_)
    (fun stored _ _ => ⟨_, (body _).trans stored, rfl⟩)
    (fun _ stored kind => ⟨_, (body _).trans stored, kind, .refl _⟩)
    fun _ mark => ⟨_, marks ▸ mark⟩
  refine ⟨lits ▸ at_.here, ?_, reasons (Array.mem_of_getElem? at_.here) at_.origin⟩
  have := at_.above
  rwa [k.trail.cut] at this

end Grounded

/-- Every step keeps the reasons grounded. -/
theorem Step.grounded (h : v.Step v') (core : v.net.Core) (x : v.Indexed) (g : v.Grounded) :
    v'.Grounded := by
  cases h with
  | steady s =>
      have reason : ∀ y, Trail.reasonOf _ y = v.net.trail.reasonOf y := fun y => by
        unfold Trail.reasonOf
        rw [s.origins]
      refine g.transfer (fun inside why => ⟨s.lits ▸ inside, reason _ ▸ why⟩) (fun at_ => ?_)
        (fun stored _ _ => ⟨_, (s.body _).trans stored, rfl⟩)
        (fun _ stored kind => ⟨_, (s.body _).trans stored, kind, .refl _⟩)
        fun _ mark => ⟨_, s.marks ▸ mark⟩
      refine ⟨s.lits ▸ at_.here, ?_, reason _ ▸ at_.origin⟩
      have above := at_.above
      unfold Trail.cut at above ⊢
      rwa [s.marks, s.lits] at above
  | reorder => exact ⟨g.named, g.sourced, g.led⟩
  | turn t => exact g.rearranged t.toRearranged
  | move r => exact g.rearranged r
  | imply stored e =>
      refine g.enqueued core.trail e (fun j why => ?_) (fun ps copied => ?_) fun _ why => ?_
      · cases Network.reasonFrom_eq_clause why
        exact ⟨_, stored, rfl⟩
      · obtain ⟨kind, same⟩ := Network.copied_reasonFrom copied
        exact ⟨_, _, stored, kind, same ▸ .refl _⟩
      · exact absurd why Network.reasonFrom_ne_decision
  | lead starts e =>
      refine g.enqueued core.trail e (fun _ why => nomatch why) (fun _ why => nomatch why)
        fun high _ => ?_
      rcases starts with root | last
      · exact absurd root (Nat.ne_of_gt high)
      · exact ⟨_, by rwa [Array.back?_eq_getElem?] at last⟩
  | openLevel =>
      refine g.transfer (fun inside why => ⟨inside, why⟩)
        (fun at_ => Network.assigned_openLevel.mp at_) (fun stored _ _ => ⟨_, stored, rfl⟩)
        (fun _ stored kind => ⟨_, stored, kind, .refl _⟩) fun {_ _ k} _ mark => ⟨k, ?_⟩
      change (v.net.trail.marks.push _)[k]? = _
      obtain ⟨low, here⟩ := Array.getElem?_eq_some_iff.mp mark
      rw [Array.getElem?_push_lt low, here]
  | back b => exact g.back core.trail b
  | store s =>
      exact g.sameTrail s.trail (fun stored _ _ => ⟨_, s.body_old stored, rfl⟩)
        fun _ stored kind => ⟨_, s.body_old stored, kind, .refl _⟩
  | drop d => exact g.drop d
  | trim t => exact g.trim t
  | compact k => exact g.compact x k
  | @addVar y observed fresh =>
      have inherit : ∀ {l r}, l ∈ v.net.trail.lits →
          (v.net.trail.addVar y).reasonOf l.var = .ok r → v.net.trail.reasonOf l.var = .ok r := by
        intro l r inside reason
        obtain ⟨o, read, rfl⟩ := Trail.reasonOf_eq_ok.mp reason
        have old := DenseMap.toIndex_lt (core.trail.held.mpr inside)
        change (v.net.trail.origins.insert y {} {}).get l.var = .ok o at read
        rw [DenseMap.get_insert_size (fresh.trans core.trail.sizes.symm), if_neg] at read
        · exact Trail.reasonOf_eq_ok.mpr ⟨o, read, rfl⟩
        · intro same
          rw [same, Var.toIndex_eq, fresh] at old
          exact Nat.lt_irrefl _ old
      exact g.transfer (fun inside reason => ⟨inside, inherit inside reason⟩)
        (fun at_ => Network.assigned_addVar core.trail fresh at_)
        (fun stored _ _ => ⟨_, stored, rfl⟩) (fun _ stored kind => ⟨_, stored, kind, .refl _⟩)
        fun _ mark => ⟨_, mark⟩

/-! ## All of it -/

/-- The clauses are indexed, mention known variables only, and ground the reasons. -/
structure Sturdy (v : View) : Prop where
  indexed : v.Indexed
  ranged : v.Ranged
  grounded : v.Grounded

/-- The network without variables has nothing to be indexed or grounded. -/
theorem sturdy_empty (journal : Journal) : (Network.empty journal).view.Sturdy := by
  have bare : ∀ id, (Network.empty journal).body? id = none := fun id =>
    Arena.body?_of_size_le (Nat.zero_le _)
  have vacant : ∀ l, (Network.empty journal).watchers l = [] := fun l => by
    simp [Network.watchers, Network.empty, DenseMap.get, DenseMap.empty]
  have gone : ∀ {id c}, (Network.empty journal).view.net.body? id ≠ some c := fun {id c} stored => by
    cases (bare id).symm.trans stored
  refine ⟨⟨fun l id => ?_, fun learnt => ?_, fun learnt id => ?_, fun learnt => ?_, fun learnt => ?_,
    rfl⟩, ⟨fun stored => absurd stored gone, fun {l w} inside => ?_⟩, ⟨fun inside => ?_,
    fun at_ => absurd at_ (not_assigned_of_root rfl),
    fun at_ => absurd at_ (not_assigned_of_root rfl)⟩⟩
  · change (((Network.empty journal).watchers l).map Watcher.clause).count id = _
    rw [vacant]
    exact (Network.share_of_none (bare id)).symm
  · cases learnt <;> exact List.nodup_nil
  · refine iff_of_false ?_ ?_
    · cases learnt <;> exact List.not_mem_nil
    · rintro ⟨c, stored, -⟩
      exact gone stored
  · cases learnt <;> rfl
  · cases learnt <;> rfl
  · change w ∈ (Network.empty journal).watchers l at inside
    rw [vacant] at inside
    cases inside
  · simp [Network.view, Network.empty, Trail.empty] at inside

theorem Step.sturdy (h : v.Step v') (core : v.net.Core) (s : v.Sturdy) : v'.Sturdy :=
  ⟨h.indexed core s.indexed, h.ranged s.ranged, h.grounded core s.indexed s.grounded⟩

theorem Chain.sturdy (h : v.Chain v') (core : v.net.Core) (s : v.Sturdy) : v'.Sturdy :=
  h.invariant Step.sturdy core s

end View

end Cdcl
