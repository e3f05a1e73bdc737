import Cdcl.Proofs.Reasons

/-!
# The meaning of the stored clauses

The facts of the root level and the problem clauses that are stored mean the same as the
clauses that were submitted.  Nothing is lost on the way: every step keeps a formula
represented, and a clause that is added at the root level is represented afterwards.

* `Step.represents` — giving up, trimming and moving clauses loses nothing;
* `represents_perform` — a call adds what it submits;
* `stored_models` — the theorem about runs.
-/

namespace Cdcl

open Network (Regime)

variable {f : List (List Lit)}

/-! ## Steps -/

namespace Network

variable {n n' : Network}

/-- Clauses stay represented after bookkeeping. -/
theorem Steady.represents (s : n.Steady n') (r : n.Represents f) : n'.Represents f := by
  have root : n'.trail.upTo 0 = n.trail.upTo 0 := by
    unfold Trail.upTo Trail.cut
    rw [s.lits, s.marks]
  exact r.transfer (Nat.le_of_eq (congrArg DenseMap.size s.values.symm))
    (fun fact => root.symm ▸ fact) fun {id b} stored =>
      ⟨b, (s.body id).trans stored, rfl, fun _ hl => hl⟩

/-- A clause that is given up was learnt, or is true for good. -/
theorem Drops.represents {id : ClauseId} {c : Clause} (d : n.Drops id c n')
    (r : n.Represents f) : n'.Represents f := by
  have root : n'.trail.upTo 0 = n.trail.upTo 0 := d.trail.upTo 0
  have vars : n'.trail.numVars = n.trail.numVars := congrArg DenseMap.size d.trail.values
  intro e he
  rcases r e he with ⟨l, hl, fact⟩ | ⟨l, hl, neg, inside⟩ | ⟨j, b, stored, problem, sub⟩
  · exact .inl ⟨l, hl, root ▸ fact⟩
  · exact .inr (.inl ⟨l, hl, neg, vars ▸ inside⟩)
  · by_cases same : j = id
    · subst same
      cases stored.symm.trans d.stored
      rcases d.needless with learnt | ⟨y, hy, fact⟩
      · exact absurd (problem.symm.trans learnt) Bool.false_ne_true
      · exact .inl ⟨y, sub y hy, root ▸ fact⟩
    · exact .inr (.inr ⟨j, b, (d.body j).trans ((if_neg same).trans stored), problem, sub⟩)

/-- What is cut off a clause is false for good, so that fewer literals represent the same. -/
theorem Trims.represents {id : ClauseId} {c : Clause} {rest : List Lit}
    (t : n.Trims id c rest n') (r : n.Represents f) : n'.Represents f := by
  refine r.transfer (Nat.le_of_eq (congrArg Trail.numVars t.trail.symm))
    (fun fact => t.trail ▸ fact) fun {j b} stored => ?_
  by_cases same : j = id
  · subst same
    cases stored.symm.trans t.stored
    exact ⟨_, (t.body j).trans (if_pos rfl), rfl, t.trimmed.sub⟩
  · exact ⟨b, (t.body j).trans ((if_neg same).trans stored), rfl, fun _ hl => hl⟩

end Network

namespace View

variable {v v' : View}

/-- No step loses a clause. -/
theorem Step.represents (h : v.Step v') (core : v.net.Core) (x : v.Indexed)
    (r : v.net.Represents f) : v'.net.Represents f := by
  cases h with
  | steady s => exact s.represents r
  | reorder _ => exact r
  | turn t => exact t.represents r
  | move m => exact m.represents r
  | imply _ e => exact e.represents core.trail r
  | lead _ e => exact e.represents core.trail r
  | openLevel => exact r.openLevel
  | back b => exact b.represents core.trail r
  | store s => exact s.represents r
  | drop d => exact d.represents r
  | trim t => exact t.represents r
  | compact k =>
      exact r.transfer (Nat.le_of_eq (congrArg DenseMap.size k.trail.values.symm))
        (fun fact => (k.trail.upTo 0).symm ▸ fact) fun {id b} stored =>
          ⟨b, (x.body?_compact k id).trans stored, rfl, fun _ hl => hl⟩
  | addVar fresh => exact r.addVar fresh

/-- By induction, no chain of steps loses a clause. -/
theorem Chain.represents (h : v.Chain v') (core : v.net.Core) (x : v.Indexed)
    (r : v.net.Represents f) : v'.net.Represents f :=
  have kept {v v' : View} (step : v.Step v') (core : v.net.Core)
      (both : v.Indexed ∧ v.net.Represents f) : v'.Indexed ∧ v'.net.Represents f :=
    ⟨step.indexed core both.1, step.represents core both.1 both.2⟩
  (h.invariant kept core ⟨x, r⟩).2

end View

/-! ## Adding clauses -/

namespace Solver

variable {g : Regime} {s s' : Solver} {d left : List Lit} {b : Bool}

/-- No operation of the solver loses a clause. -/
theorem Moves.represents (m : s.Moves s') (core : s.net.Core) (sturdy : s.net.view.Sturdy)
    (r : s.net.Represents f) : s'.net.Represents f :=
  View.Chain.represents m.chain core sturdy.indexed r

/-- A clause that is added at the root level is represented afterwards, if the clauses may
still be satisfiable. -/
theorem represented_addAtRoot (i : s.Inv g none none) (loose : ¬g.sound) (root : s.level = 0)
    (fine : s.ok = true) (h : s.addAtRoot d = .ok (s', b, left)) (ok : s'.ok = true) :
    s'.net.Represented d := by
  obtain ⟨normal, normalized, h⟩ := bind_eq_ok.mp h
  have spec := normalize_spec i.net.wf.trail normalized
  split at h
  next kept =>
    cases h
    exact spec.imp_right .inl
  next =>
    cases h
    cases ok
  next l =>
    have kept : Kept s.net.trail d [l] := spec
    obtain ⟨⟨s₁, answer⟩, asserted, h⟩ := bind_eq_ok.mp h
    cases h
    obtain ⟨-, -, level, -, here⟩ := i.assertUnit root fine (fun on => absurd on loose) asserted
    refine .inl ⟨l, kept.mem l List.mem_cons_self, ?_⟩
    rw [Trail.upTo_of_le (Nat.le_of_eq level)]
    exact Array.mem_toList_iff.mpr here
  next lits _ _ =>
    have kept : Kept s.net.trail d lits := spec
    obtain ⟨⟨n, id⟩, added, h⟩ := bind_eq_ok.mp h
    cases h
    obtain ⟨body, same, learnt, stores⟩ := Network.stores added
    exact .inr (.inr ⟨id, body, stores.body_new, learnt, fun l hl => kept.mem l (same ▸ hl)⟩)

/-- A clause that is added joins those that are represented. -/
theorem represents_addClause (r : Ready g s) (loose : ¬g.sound) (sturdy : s.net.view.Sturdy)
    (root : s.level = 0) (before : s.ok = true → s.net.Represents f)
    (h : s.addClauseReporting d = .ok (s', b, left)) (ok : s'.ok = true) :
    s'.net.Represents (f ++ [d]) := by
  have core := r.inv.net.wf.core
  have moves := addClauseReporting_moves core r.inv.covers h
  have fine := moves.ok ok
  refine (moves.represents core sturdy (before fine)).append ?_
  unfold addClauseReporting at h
  rw [if_neg (by simp [fine]), if_pos root] at h
  have idle : s.Inv g none none := r.idle root ▸ r.inv
  exact represented_addAtRoot ((kin_log rfl s).inv idle) loose root fine h ok

/-- A clause of a text joins those that are represented. -/
theorem represents_loadItem {item : Dimacs.Item} (r : Ready g s) (loose : ¬g.sound)
    (sturdy : s.net.view.Sturdy) (root : s.level = 0)
    (before : s.ok = true → s.net.Represents f) (h : s.loadItem item = .ok s')
    (ok : s'.ok = true) : s'.net.Represents (f ++ (clauseOf item).toList) := by
  have core := r.inv.net.wf.core
  have silent (none_ : (clauseOf item).toList = []) :
      s'.net.Represents (f ++ (clauseOf item).toList) := by
    have moves := loadItem_moves r h
    rw [none_, List.append_nil]
    exact moves.represents core sturdy (before (moves.ok ok))
  cases item with
  | comment => exact silent rfl
  | header vars clauses => exact silent rfl
  | clause lits =>
      obtain ⟨s₁, answer, left, mentioned, reported⟩ := loadItem_clause_eq_ok h
      obtain ⟨r₁, d₁⟩ := r.mention mentioned
      have moves := mention_moves r mentioned
      have root₁ : s₁.level = 0 := Nat.le_zero.mp (root ▸ d₁.level)
      exact represents_addClause r₁ loose (moves.sturdy core sturdy) root₁
        (fun fine => moves.represents core sturdy (before (moves.ok fine))) reported ok

theorem represents_loadItems {items : List Dimacs.Item} (r : Ready g s) (loose : ¬g.sound)
    (sturdy : s.net.view.Sturdy) (root : s.level = 0)
    (before : s.ok = true → s.net.Represents f) (h : s.loadItems items = .ok s')
    (ok : s'.ok = true) : s'.net.Represents (f ++ items.filterMap clauseOf) := by
  induction items generalizing g s f with
  | nil =>
      cases h
      rw [List.filterMap_nil, List.append_nil]
      exact before ok
  | cons item items ih =>
      obtain ⟨s₁, loaded, h⟩ := bind_eq_ok.mp h
      obtain ⟨r₁, d₁⟩ := r.loadItem (.inl root) loaded
      have sturdy₁ := (loadItem_moves r loaded).sturdy r.inv.net.wf.core sturdy
      have root₁ : s₁.level = 0 := Nat.le_zero.mp (root ▸ d₁.level)
      have rest := ih r₁ loose sturdy₁ root₁
        (represents_loadItem r loose sturdy root before loaded) h
      rw [List.append_assoc] at rest
      have same : (item :: items).filterMap clauseOf =
          (clauseOf item).toList ++ items.filterMap clauseOf := by
        cases e : clauseOf item <;> simp [e]
      exact same ▸ rest

/-- After a call that adds its clauses at the root level, they are represented too. -/
theorem represents_perform {c : Call} {fuel : Nat} {reply : Reply} {calls : List Call}
    (r : Ready (regimeOf calls False False fun _ => True) s) (sturdy : s.net.view.Sturdy)
    (fine : s.AddsAtRoot c) (before : s.ok = true → s.net.Represents f)
    (h : s.perform fuel c = .ok (s', reply)) (ok : s'.ok = true) :
    s'.net.Represents (f ++ c.clauses) := by
  have moves := moves_of_standing r h
  have silent (none_ : c.clauses = []) : s'.net.Represents (f ++ c.clauses) := by
    rw [none_, List.append_nil]
    exact moves.represents r.inv.net.wf.core sturdy (before (moves.ok ok))
  cases c with
  | addClause d =>
      obtain ⟨⟨s₁, answer, left⟩, added, h⟩ := bind_eq_ok.mp h
      cases h
      exact represents_addClause r (fun on => on) sturdy (fine rfl) before added ok
  | load strict bs =>
      obtain ⟨⟨s₁, error⟩, loaded, h⟩ := bind_eq_ok.mp h
      cases h
      obtain ⟨s₂, added, loaded⟩ := bind_eq_ok.mp loaded
      obtain ⟨s₃, mentioned, loaded⟩ := bind_eq_ok.mp loaded
      cases loaded
      have core := r.inv.net.wf.core
      have root : s.level = 0 := fine rfl
      obtain ⟨r₂, -⟩ := r.loadItems (.inl root) added
      have sturdy₂ := (loadItems_moves r (.inl root) added).sturdy core sturdy
      have moves₂ := mention_moves r₂ mentioned
      have items := represents_loadItems r (fun on => on) sturdy root before added
        (moves₂.ok ok)
      exact moves₂.represents r₂.inv.net.wf.core sturdy₂ items
  | _ => exact silent rfl

/-! ## Runs -/

variable {options : Options} {calls : List Call}

/-- In a run that adds its clauses at the root level, all of them are represented. -/
theorem Reaches.represents (run : Reaches options AddsAtRoot calls s) (ok : s.ok = true) :
    s.net.Represents (submitted calls) := by
  induction run with
  | fresh => exact fun _ none_ => absurd none_ List.not_mem_nil
  | @call calls s s' c fuel reply before fine performed ih =>
      have all : submitted (calls ++ [c]) = submitted calls ++ c.clauses := by
        simp [submitted]
      exact all ▸ represents_perform before.standing before.sane.sturdy fine ih performed ok

/-- If clauses are added at the root level, then as long as they may be satisfiable, the
facts of the root level and the stored problem clauses together have the same models as
the clauses that were submitted. -/
theorem Reaches.stored_models (run : Reaches options AddsAtRoot calls s) (ok : s.ok = true) :
    ∃ cs, s.net.db.problem.toList.mapM s.net.clause = .ok cs ∧
      ∀ σ, Models σ (submitted calls) ↔
        (∀ l ∈ s.proved, l.Holds σ) ∧ Models σ (cs.map Clause.lits) := by
  have sturdy := run.sane.sturdy
  have sound := (run.mono AddsAtRoot.rightly).ready.inv.net.sound trivial
  have root : s.proved = s.net.trail.upTo 0 := Trail.root_eq s.net.trail
  have listed : ∀ {id}, id ∈ s.net.db.problem.toList ↔
      ∃ c, s.net.body? id = some c ∧ c.learnt = false := fun {id} =>
    sturdy.indexed.listed false id
  obtain ⟨cs, decoded⟩ := exists_mapM (f := s.net.clause) (l := s.net.db.problem.toList)
    fun id inside => by
      obtain ⟨c, stored, -⟩ := listed.mp inside
      obtain ⟨d, read, -⟩ := Network.exists_clause stored
      exact ⟨d, read⟩
  refine ⟨cs, decoded, fun σ => ⟨fun model => ⟨fun l fact => ?_, fun e he => ?_⟩, ?_⟩⟩
  · obtain ⟨m, only, true_⟩ := sound.root (root ▸ fact) σ model
    exact List.mem_singleton.mp only ▸ true_
  · obtain ⟨c, inside, rfl⟩ := List.mem_map.mp he
    obtain ⟨id, -, read⟩ := mapM_mem_right decoded inside
    exact sound.clauses (Arena.body?_of_get read) σ model
  · rintro ⟨facts, clauses⟩ e he
    rcases run.represents ok e he with
      ⟨l, hl, fact⟩ | ⟨l, hl, neg, -⟩ | ⟨id, c, stored, problem, sub⟩
    · exact ⟨l, hl, facts l (root ▸ fact)⟩
    · by_cases true_ : l.Holds σ
      · exact ⟨l, hl, true_⟩
      · exact ⟨-l, neg, Lit.holds_neg.mpr true_⟩
    · obtain ⟨d, inside, read⟩ := mapM_mem_left decoded (listed.mpr ⟨c, stored, problem⟩)
      have same : d.body = c := Option.some.inj ((Arena.body?_of_get read).symm.trans stored)
      obtain ⟨l, hl, true_⟩ := clauses d.lits (List.mem_map.mpr ⟨d, inside, rfl⟩)
      exact ⟨l, sub l (same ▸ hl), true_⟩

/-- Clauses with a repetition, with a literal and its negation, and with literals that
become true or false for good. -/
def cutClauses : List Call :=
  [.newVar {}, .newVar {}, .newVar {}, .addClause [⟨⟨0⟩, true⟩, ⟨⟨1⟩, true⟩, ⟨⟨0⟩, true⟩],
    .addClause [⟨⟨2⟩, true⟩, ⟨⟨2⟩, false⟩], .addClause [⟨⟨0⟩, true⟩], .simplify,
    .addClause [⟨⟨1⟩, false⟩, ⟨⟨0⟩, false⟩, ⟨⟨2⟩, true⟩]]

/-- One clause is left to be stored, and the others are satisfied or facts. -/
theorem cut_clauses_stored : ∃ s cs, Reaches {} AddsAtRoot cutClauses s ∧ s.ok = true ∧
    s.proved = [⟨⟨0⟩, true⟩] ∧ s.net.db.problem = #[⟨1⟩] ∧
    s.net.db.problem.toList.mapM s.net.clause = .ok cs ∧
    ∀ σ, Models σ (submitted cutClauses) ↔
      (∀ l ∈ s.proved, l.Holds σ) ∧ Models σ (cs.map Clause.lits) := by
  have found : ∃ s ∈ (create {} false none).toOption, ∃ s' ∈ s.playAll AddsAtRoot cutClauses,
      s'.ok = true ∧ s'.proved = [⟨⟨0⟩, true⟩] ∧ s'.net.db.problem = #[⟨1⟩] := by
    decide +kernel
  obtain ⟨s, run, ok, proved, problem⟩ := exists_played found
  obtain ⟨cs, decoded, same⟩ := run.stored_models ok
  exact ⟨s, cs, run, ok, proved, problem, decoded, same⟩

end Solver

end Cdcl
