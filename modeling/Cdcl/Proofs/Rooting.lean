import Cdcl.Proofs.Inserting
import Cdcl.Proofs.Rehearsing
import Cdcl.Proofs.Twins.Solver

/-!
# Adding a clause before or after going back to the root level

Above the root level a clause is arranged by the values of its literals, the solver may go
back some levels, and a literal may become true.  None of this is left at the root level:
whether the clause is added first or last, the solver that has gone back holds the same
problem.

What is kept of a clause depends on the facts of the root level alone.  A clause of one
literal is asserted and propagated in states that differ only in what has been told.

* `normalize_agrees` — what is kept of a clause;
* `SameProblem` — the same facts, and the same problem clauses up to the order of literals;
* `addClause_rooted` — both ways lead to the same problem.
-/

namespace Cdcl

theorem Journal.lockstep_any : Journal.Lockstep fun _ _ => True :=
  ⟨fun _ => trivial, fun _ => trivial⟩

/-! ## The problem clauses -/

namespace Network

variable {n m m' : Network} {c c' : List Lit}

/-- The literals of the problem clauses, in the order of their row. -/
def problemClauses (n : Network) : Except Fault (List (List Lit)) :=
  (n.row false).mapM fun id => do return (← n.clause id).lits

theorem exists_lits {id : ClauseId} {b : Clause} (stored : n.body? id = some b) :
    (do return (← n.clause id).lits : Except Fault (List Lit)) = .ok b.lits := by
  obtain ⟨d, read, rfl⟩ := exists_clause stored
  exact bind_eq_ok.mpr ⟨d, read, rfl⟩

/-- If the same clauses are stored in both but for the order of literals, they are listed
so. -/
theorem perm_problemClauses (rows : m.row false = n.row false)
    (live : ∀ id ∈ n.row false, ∃ b, n.body? id = some b)
    (bodies : ∀ {id b}, n.body? id = some b → ∃ b', m.body? id = some b' ∧ b.lits.Perm b'.lits) :
    ∃ cs cs', n.problemClauses = .ok cs ∧ m.problemClauses = .ok cs' ∧
      List.Forall₂ List.Perm cs cs' := by
  unfold problemClauses
  rw [rows]
  generalize n.row false = ids at live
  induction ids with
  | nil => exact ⟨[], [], rfl, rfl, .nil⟩
  | cons id ids ih =>
      obtain ⟨cs, cs', read, read', perm⟩ := ih fun i hi => live i (List.mem_cons_of_mem id hi)
      obtain ⟨b, stored⟩ := live id List.mem_cons_self
      obtain ⟨b', stored', same⟩ := bodies stored
      refine ⟨b.lits :: cs, b'.lits :: cs', ?_, ?_, .cons same perm⟩
      · rw [List.mapM_cons, exists_lits stored, read]
        rfl
      · rw [List.mapM_cons, exists_lits stored', read']
        rfl

/-- The same clause is stored by both, but for the order of its literals. -/
theorem Gains.reorders (gains : n.Gains c m) (gains' : n.Gains c' m') (perm : c.Perm c') :
    m'.row false = m.row false ∧
      ∀ {id b}, m.body? id = some b → ∃ b', m'.body? id = some b' ∧ b.lits.Perm b'.lits := by
  obtain ⟨row, d, lits, -, body⟩ := gains
  obtain ⟨row', d', lits', -, body'⟩ := gains'
  refine ⟨row'.trans row.symm, fun {id b} stored => ?_⟩
  rw [body] at stored
  rw [body']
  split at stored
  next new =>
    cases stored
    rw [if_pos new]
    exact ⟨d', rfl, lits ▸ lits'.symm ▸ perm⟩
  next old =>
    rw [if_neg old]
    exact ⟨b, stored, .refl _⟩

end Network

/-! ## What is kept of a clause -/

namespace Solver

variable {t t' : Trail} {kept ls d : List Lit} {l : Lit}

/-- The value at the root level depends on the facts there. -/
theorem rootValue_agrees (w : t.WF) (w' : t'.WF) (root : t'.upTo 0 = t.upTo 0) :
    Jointly Eq (t.rootValue l) (t'.rootValue l) := by
  intro x y left right
  have holds : x = .holds ↔ y = .holds := by
    have before := rootValue_holds_iff (l := l) w
    have after := rootValue_holds_iff (l := l) w'
    rw [left, Except.ok.injEq] at before
    rw [right, Except.ok.injEq, root] at after
    exact before.trans after.symm
  have fails : x = .fails ↔ y = .fails := by
    have before := rootValue_fails_iff (l := l) w
    have after := rootValue_fails_iff (l := l) w'
    rw [left, Except.ok.injEq] at before
    rw [right, Except.ok.injEq, root] at after
    exact before.trans after.symm
  cases x <;> cases y <;> simp_all

/-- By induction along the clause, what is dropped depends on these facts. -/
theorem normalizeFrom_agrees (w : t.WF) (w' : t'.WF) (root : t'.upTo 0 = t.upTo 0) :
    Jointly Eq (normalizeFrom t kept ls) (normalizeFrom t' kept ls) := by
  induction ls generalizing kept with
  | nil => exact .ok rfl
  | cons l ls ih =>
      refine .bind (rootValue_agrees w w' root) fun x y same _ => ?_
      subst same
      exact .ite (fun _ => .ok rfl) fun _ => .ite (fun _ => ih) fun _ => ih

/-- What is kept of a clause depends on the facts of the root level alone. -/
theorem normalize_agrees (w : t.WF) (w' : t'.WF) (root : t'.upTo 0 = t.upTo 0) :
    Jointly Eq (normalize t ls) (normalize t' ls) :=
  normalizeFrom_agrees w w' root

/-! ## The same problem -/

variable {s s' s₁ s₂ s₃ s₄ : Solver} {b b' : Bool} {J : Journal → Journal → Prop}

/-- The solvers know the same facts and store the same problem clauses, up to the order of
the literals in each. -/
structure SameProblem (s s' : Solver) : Prop where
  ok : s'.ok = s.ok
  proved : s'.proved = s.proved
  clauses : ∃ cs cs', s.net.problemClauses = .ok cs ∧ s'.net.problemClauses = .ok cs' ∧
    List.Forall₂ List.Perm cs cs'

theorem Sane.live (x : s.Sane) : ∀ id ∈ s.net.row false, ∃ b, s.net.body? id = some b := by
  intro id inside
  obtain ⟨b, stored, -⟩ := (x.sturdy.indexed.listed false id).mp inside
  exact ⟨b, stored⟩

/-- Nothing else than facts and stored clauses counts for a problem. -/
theorem sameProblem_of_db (x : s.Sane) (ok : s'.ok = s.ok) (proved : s'.proved = s.proved)
    (db : s'.net.db = s.net.db) : s.SameProblem s' := by
  refine ⟨ok, proved, Network.perm_problemClauses ?_ x.live fun {id b} stored => ?_⟩
  · unfold Network.row
    rw [db]
  · refine ⟨b, ?_, .refl _⟩
    unfold Network.body?
    rw [db]
    exact stored

/-- Solvers that have been told different things hold the same problem. -/
theorem Apart.sameProblem (x : s.Sane) (a : s.Apart J s') : s.SameProblem s' := by
  obtain ⟨⟨arena, -⟩⟩ := a
  refine ⟨rfl, rfl, Network.perm_problemClauses rfl x.live fun {id b} stored => ?_⟩
  refine ⟨b, ?_, .refl _⟩
  unfold Network.body? at stored ⊢
  rw [Arena.body?_eq] at stored ⊢
  rw [← stored]
  exact congrArg _ (arena.clauses id)

theorem Apart.retell {m : Message} (a : s.Apart J s') :
    s.Apart (fun _ _ => True) (s'.log m) := by
  obtain ⟨⟨arena, -⟩⟩ := a
  exact .mk (.mk arena trivial)

/-- Going back to the root level keeps its facts. -/
theorem Lands.proved (r : s.Lands 0 s') : s'.proved = s.proved := by
  unfold Solver.proved
  rw [Trail.root_eq, Trail.root_eq]
  exact r.upTo 0 (Nat.le_refl 0)

/-- Going back to the root level changes nothing of the problem. -/
theorem Lands.sameProblem (r : s.Lands 0 s₁) (same : s.SameProblem s') : s₁.SameProblem s' := by
  obtain ⟨cs, cs', read, read', perm⟩ := same.clauses
  refine ⟨same.ok.trans r.ok.symm, same.proved.trans r.proved.symm, cs, cs', ?_, read', perm⟩
  rw [← read]
  unfold Network.problemClauses Network.row Network.clause
  rw [r.db]

/-! ## Both ways -/

section Rooted

variable {m m' : Message} {left left' : List Lit}

/-- A clause that is arranged and inserted is the one that is stored at the root level. -/
theorem insertArranged_rooted {a r : Ranked} {rest : List Ranked} {n : Network} {id : ClauseId}
    (w : s.net.trail.WF) (covers : s.order.Covers s.net.trail none)
    (k : Kept s.net.trail d kept) (arr : Arranged s.net.trail kept (a :: r :: rest))
    (inserted : s.insertArranged a r ((a :: r :: rest).map (·.lit)) = .ok s₁) (x : s₁.Sane)
    (flat : s.Lands 0 s₃) (added : s₃.net.addClause kept false = .ok (n, id)) :
    s₁.SameProblem { s₃ with net := n } := by
  have inserts := insertArranged_inserts w covers arr inserted
  have above : ∀ p j, (Retreat.of a r).move a.lit = .imply p j → 0 < j := by
    intro p j implies
    obtain ⟨asserts, -⟩ := Retreat.move_eq_imply implies
    obtain ⟨false_, here, -⟩ := Retreat.of_assertAt asserts
    exact here ▸ arr.deep w k.free (List.mem_cons_of_mem a List.mem_cons_self) false_
  obtain ⟨_, _, _, stores⟩ := Network.stores added
  have gains : s.net.Gains kept n := (Network.gains_addClause added).congr flat.db rfl
  obtain ⟨rows, bodies⟩ := inserts.gains.reorders gains arr.perm
  refine ⟨flat.ok.trans inserts.ok.symm, ?_, Network.perm_problemClauses rows x.live bodies⟩
  calc
    n.trail.root = s₃.proved := congrArg Trail.root stores.trail
    _ = s.proved := flat.proved
    _ = s₁.proved := (inserts.root above).symm

/-- Adding a clause above the root level comes to what adding it there would. -/
theorem addAboveRoot_rooted (w : s.net.trail.WF) (covers : s.order.Covers s.net.trail none)
    (added : (s.log m).addAboveRoot d = .ok (s₁, b, left)) (x : s₁.Sane)
    (back : s.cancelUntil 0 = .ok s₃) (added' : (s₃.log m').addAtRoot d = .ok (s₄, b', left')) :
    b' = b ∧ s₁.SameProblem s₄ := by
  have flat := lands_cancelUntil w covers (Nat.zero_le _) back
  obtain ⟨normal, normalized, added⟩ := bind_eq_ok.mp added
  obtain ⟨normal', normalized', added'⟩ := bind_eq_ok.mp added'
  have root : s₃.net.trail.upTo 0 = s.net.trail.upTo 0 := flat.upTo 0 (Nat.le_refl 0)
  have same : normal = normal' := normalize_agrees w flat.wf root _ _ normalized normalized'
  subst same
  have k := normalize_spec w normalized
  split at added
  next =>
    cases added
    cases added'
    exact ⟨rfl, sameProblem_of_db x flat.ok flat.proved flat.db⟩
  next =>
    cases added
    cases added'
    exact ⟨rfl, sameProblem_of_db x rfl flat.proved flat.db⟩
  next l =>
    obtain ⟨s₅, back', added⟩ := bind_eq_ok.mp added
    obtain ⟨⟨_, _⟩, here, added⟩ := bind_eq_ok.mp added
    obtain ⟨⟨_, _⟩, there, added'⟩ := bind_eq_ok.mp added'
    cases added
    cases added'
    have told : (s.log m).Apart (fun _ _ => True) s := .mk (.mk (.refl _) trivial)
    have gone : s₅.Apart (fun _ _ => True) s₃ :=
      told.cancelUntil Journal.lockstep_any _ _ back' back
    obtain ⟨a, answers⟩ := gone.retell.assertUnit Journal.lockstep_any _ _ here there
    exact ⟨answers, a.sameProblem x⟩
  next kept none_ single =>
    obtain ⟨rs, arranged, added⟩ := bind_eq_ok.mp added
    have arr := arrange_spec arranged
    split at added
    next a r rest =>
      obtain ⟨_, inserted, added⟩ := bind_eq_ok.mp added
      cases added
      obtain ⟨p, q, others, rfl⟩ := exists_two none_ single
      obtain ⟨⟨n, id⟩, stored, added'⟩ := bind_eq_ok.mp added'
      cases added'
      have told : (s.log m).Lands 0 (s₃.log m') :=
        ⟨flat.wf, flat.level, flat.lits, flat.upTo, flat.db, flat.ok, flat.vars⟩
      exact ⟨rfl, insertArranged_rooted (s := s.log m) w covers k arr inserted x told stored⟩
    next => cases added

end Rooted

/-- Adding a clause above the root level and going back, or going back and adding it there,
leads to the same answer and to the same problem. -/
theorem addClause_rooted {options : Options} {allowed : Solver → Call → Prop}
    {calls : List Call} (run : Reaches options allowed calls s) (deep : 0 < s.level)
    (added : s.addClause d = .ok (s₁, b)) (back : s₁.cancelUntil 0 = .ok s₂)
    (back' : s.cancelUntil 0 = .ok s₃) (added' : s₃.addClause d = .ok (s₄, b')) :
    b' = b ∧ s₂.SameProblem s₄ := by
  obtain ⟨⟨s₁, b, left⟩, added, h⟩ := bind_eq_ok.mp added
  cases h
  obtain ⟨⟨s₄, b', left'⟩, added', h⟩ := bind_eq_ok.mp added'
  cases h
  have w := run.standing.inv.core.trail
  have covers := run.standing.inv.covers
  obtain ⟨⟨inv, -, -⟩, x⟩ := run.added added
  have flat := lands_cancelUntil w covers (Nat.zero_le _) back'
  have down := lands_cancelUntil inv.core.trail inv.covers (Nat.zero_le _) back
  suffices b' = b ∧ s₁.SameProblem s₄ from ⟨this.1, down.sameProblem this.2⟩
  unfold addClauseReporting at added added'
  rw [flat.ok] at added'
  cases ok : s.ok with
  | false =>
      rw [ok] at added added'
      cases added
      cases added'
      exact ⟨rfl, sameProblem_of_db x flat.ok flat.proved flat.db⟩
  | true =>
      rw [ok] at added added'
      rw [if_neg (by decide), if_neg (Nat.ne_of_gt deep)] at added
      rw [if_neg (by decide), if_pos flat.level] at added'
      exact addAboveRoot_rooted w covers added x back' added'

/-- A clause of three literals, and a level at which its first literal is true. -/
def decidedClause : List Call :=
  [.newVar {}, .newVar {}, .newVar {},
    .addClause [⟨⟨0⟩, true⟩, ⟨⟨1⟩, true⟩, ⟨⟨2⟩, true⟩], .decide ⟨⟨0⟩, true⟩, .propagate]

/-- Above the root level the clause implies its second literal, which therefore comes first;
at the root level nothing is implied. -/
theorem clause_above_decision_rooted : ∃ (s s₁ s₂ s₃ s₄ : Solver) (b' : Bool),
    Reaches {} (fun _ _ => True) decidedClause s ∧ 0 < s.level ∧
      s.addClause [⟨⟨0⟩, false⟩, ⟨⟨1⟩, false⟩] = .ok (s₁, true) ∧ s₁.cancelUntil 0 = .ok s₂ ∧
      s₂.net.problemClauses = .ok
        [[⟨⟨0⟩, true⟩, ⟨⟨1⟩, true⟩, ⟨⟨2⟩, true⟩], [⟨⟨1⟩, false⟩, ⟨⟨0⟩, false⟩]] ∧
      s.cancelUntil 0 = .ok s₃ ∧ s₃.addClause [⟨⟨0⟩, false⟩, ⟨⟨1⟩, false⟩] = .ok (s₄, b') ∧
      b' = true ∧ s₂.SameProblem s₄ := by
  have found : ∃ s ∈ (create {} false none).toOption,
      ∃ s' ∈ s.playAll (fun _ _ => True) decidedClause, 0 < s'.level ∧
        (∃ r ∈ (s'.addInOrder [⟨⟨0⟩, false⟩, ⟨⟨1⟩, false⟩]).toOption, r.2.1 = true ∧
          ∃ s₂ ∈ (r.1.cancelUntil 0).toOption, s₂.net.problemClauses.toOption = some
            [[⟨⟨0⟩, true⟩, ⟨⟨1⟩, true⟩, ⟨⟨2⟩, true⟩], [⟨⟨1⟩, false⟩, ⟨⟨0⟩, false⟩]]) ∧
        ∃ s₃ ∈ (s'.cancelUntil 0).toOption,
          (s₃.addInOrder [⟨⟨0⟩, false⟩, ⟨⟨1⟩, false⟩]).toOption.isSome := by
    set_option synthInstance.maxSize 512 in decide +kernel
  obtain ⟨s, run, deep, ⟨⟨s₁, _, _⟩, added, rfl, s₂, back, stored⟩, s₃, back', there⟩ :=
    exists_played found
  obtain ⟨⟨s₄, b', _⟩, added'⟩ := Option.isSome_iff_exists.mp there
  have added := addClause_eq_ok (eq_ok_of_toOption added)
  have back := eq_ok_of_toOption back
  have back' := eq_ok_of_toOption back'
  have added' := addClause_eq_ok (eq_ok_of_toOption added')
  exact ⟨s, s₁, s₂, s₃, s₄, b', run, deep, added, back, eq_ok_of_toOption stored, back', added',
    addClause_rooted run deep added back back' added'⟩

end Solver

end Cdcl
