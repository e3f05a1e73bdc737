import Cdcl.Proofs.Rehearsing

/-!
# Models

What a solver answers to be a model settles every clause that was submitted.

* `Network.Settles` — what holds of a clause once everything has been propagated without a
  clause being found false: it has a true literal, or is a tautology, or has literals of
  two variables without a value;
* `model_settles` — a search that answers yes leaves a model that settles all clauses, and
  satisfies them if every variable may be decided.

A solver may be given clauses at any level, as long as it begins levels only when
everything has been propagated.
-/

namespace Cdcl

/-- A literal whose variable is covered and that is assigned in neither sign has no
value. -/
theorem Trail.WF.unassigned {t : Trail} {l : Lit} (w : t.WF) (inside : l.var.index < t.numVars)
    (pos : l ∉ t.lits) (neg : -l ∉ t.lits) : t.value l.var = .ok .unknown := by
  obtain ⟨x, read⟩ : ∃ x, t.values.get l.var = .ok x := DenseMap.exists_get.mpr inside
  have known : t.litValue l = .ok (x.flipIf (!l.sign)) := Trail.litValue_eq_ok.mpr ⟨x, read, rfl⟩
  have unknown := (w.unknown_iff known).mpr ⟨pos, neg⟩
  rw [Truth.flipIf_eq_unknown] at unknown
  exact unknown ▸ read

theorem Clause.var_first_ne (c : Clause) (distinct : (c.lits.map Lit.var).Nodup) :
    c.first.var ≠ c.second.var := by
  have apart : c.first.var ∉ c.premises.map Lit.var := (List.nodup_cons.mp distinct).1
  exact fun same => apart (List.mem_map.mpr ⟨c.second, List.mem_cons_self, same.symm⟩)

namespace Network

variable {g : Regime} {n : Network} {lists : Lit → Watcher → Prop} {c : List Lit}

/-- The clause has a true literal, is a tautology, or has literals of two variables
without a value. -/
def Settles (n : Network) (c : List Lit) : Prop :=
  (∃ l ∈ c, l ∈ n.trail.lits) ∨ (∃ l ∈ c, -l ∈ c ∧ l.var.index < n.trail.numVars) ∨
    ∃ l ∈ c, ∃ m ∈ c, l.var ≠ m.var ∧ n.trail.value l.var = .ok .unknown ∧
      n.trail.value m.var = .ok .unknown

/-- A literal with a list of watchers has a variable that is covered. -/
theorem Watched.index_lt {l : Lit} {w : Watcher} (watched : n.Watched n.Lists)
    (listed : n.Lists (-l) w) : l.var.index < n.trail.numVars := by
  obtain ⟨ws, read, -⟩ := listed
  have inside := DenseMap.toIndex_lt read
  rw [Lit.toIndex_eq, Lit.code, Lit.neg_var, watched.size] at inside
  omega

/-- If everything has been propagated, a stored clause has a true literal, or its watched
literals have no value. -/
theorem Fits.stored_settles {id : ClauseId} {b : Clause} (fits : n.Fits g n.Lists noneDue)
    (on : g.paced) (quiet : n.trail.head = n.trail.lits.size) (stored : n.body? id = some b) :
    (∃ l ∈ b.lits, l ∈ n.trail.lits) ∨
      (n.trail.value b.first.var = .ok .unknown ∧ n.trail.value b.second.var = .ok .unknown) := by
  by_cases sat : ∃ l ∈ b.lits, l ∈ n.trail.lits
  · exact .inl sat
  · right
    have w := fits.wf
    have unassigned : ∀ x, x = b.first ∨ x = b.second → x ∈ b.lits →
        (∃ v, n.Lists (-x) v) → n.trail.value x.var = .ok .unknown := by
      intro x watched inside listed
      obtain ⟨v, listed⟩ := listed
      apply w.trail.unassigned (w.watched.index_lt listed)
      · exact fun true_ => sat ⟨x, inside, true_⟩
      · intro false_
        have propagated : -x ∈ n.trail.lits.toList.take n.trail.head := by
          rw [quiet, ← Array.length_toList, List.take_length]
          exact Array.mem_toList_iff.mpr false_
        exact sat ((fits.processed on stored watched propagated).resolve_left False.elim)
    obtain ⟨_, first⟩ := w.watched.first stored
    obtain ⟨_, second⟩ := w.watched.second stored
    exact ⟨unassigned _ (.inl rfl) b.first_mem ⟨_, first⟩,
      unassigned _ (.inr rfl) b.second_mem ⟨_, second⟩⟩

/-- If everything has been propagated, every clause of the regime is settled. -/
theorem Fits.settles (fits : n.Fits g n.Lists noneDue) (on : g.paced)
    (quiet : n.trail.head = n.trail.lits.size) (hc : c ∈ g.stored) : n.Settles c := by
  rcases fits.represents on c hc with ⟨l, hl, fact⟩ | tautology | ⟨id, b, stored, -, sub⟩
  · exact .inl ⟨l, hl, Trail.mem_of_mem_upTo fact⟩
  · exact .inr (.inl tautology)
  · rcases fits.stored_settles on quiet stored with ⟨l, hl, true_⟩ | ⟨first, second⟩
    · exact .inl ⟨l, sub l hl, true_⟩
    · refine .inr (.inr ⟨b.first, sub _ b.first_mem, b.second, sub _ b.second_mem, ?_,
        first, second⟩)
      exact b.var_first_ne (fits.wf.distinct stored)

/-- A clause that is settled has a true literal if every variable has a value. -/
theorem Settles.satisfied (w : n.trail.WF) (settled : n.Settles c)
    (total : ∀ v, v.index < n.trail.numVars → n.trail.value v ≠ .ok .unknown) :
    ∃ l ∈ c, n.trail.litValue l = .ok .holds := by
  have outside : ∀ v, n.trail.value v ≠ .ok .unknown := by
    intro v unknown
    exact total v (DenseMap.toIndex_lt unknown) unknown
  rcases settled with ⟨l, hl, true_⟩ | ⟨l, hl, neg, inside⟩ | ⟨l, -, m, -, -, unknown, -⟩
  · exact ⟨l, hl, w.holds_iff.mpr true_⟩
  · by_cases pos : l ∈ n.trail.lits
    · exact ⟨l, hl, w.holds_iff.mpr pos⟩
    · refine ⟨-l, neg, w.holds_iff.mpr ?_⟩
      by_contra unassigned
      exact outside l.var (w.unassigned inside pos unassigned)
  · exact absurd unknown (outside l.var)

/-- A clause that is settled is not false. -/
theorem Settles.not_false (w : n.trail.WF) (settled : n.Settles c) :
    ∃ l ∈ c, n.trail.litValue l ≠ .ok .fails := by
  rcases settled with ⟨l, hl, true_⟩ | ⟨l, hl, neg, -⟩ | ⟨l, hl, m, -, -, unknown, -⟩
  · refine ⟨l, hl, fun false_ => ?_⟩
    exact absurd ((w.holds_iff.mpr true_).symm.trans false_) nofun
  · by_cases false_ : -l ∈ n.trail.lits
    · refine ⟨-l, neg, fun read => ?_⟩
      exact absurd ((w.holds_iff.mpr false_).symm.trans read) nofun
    · exact ⟨l, hl, fun read => false_ (w.fails_iff.mp read)⟩
  · have read : n.trail.litValue l = .ok .unknown :=
      Trail.litValue_eq_ok.mpr ⟨_, unknown, Truth.flipIf_eq_unknown.mpr rfl⟩
    exact ⟨l, hl, fun false_ => absurd (read.symm.trans false_) nofun⟩

end Network

namespace Solver

open Network (Regime)

variable {options : Options} {calls : List Call} {s s' : Solver} {fuel : Nat} {c : List Lit}

/-! ## Runs that begin levels in quiet -/

instance (s : Solver) : Decidable s.Quiet :=
  inferInstanceAs (Decidable (_ = _ ∧ _ = _))

/-- Levels are begun only when everything has been propagated and no conflict is
pending. -/
def BeginsQuietly (s : Solver) (c : Call) : Prop := c.begins = true → s.Quiet

instance (s : Solver) (c : Call) : Decidable (s.BeginsQuietly c) :=
  inferInstanceAs (Decidable (c.begins = true → s.Quiet))

/-- In a run that begins levels in quiet, all clauses are visited in time. -/
theorem Reaches.visited (run : Reaches options BeginsQuietly calls s) :
    Ready (regimeOf calls False True fun _ => True) s := by
  induction run with
  | fresh created => exact ready_create created rfl
  | call _ fine performed before =>
      refine (before.call (fun _ _ left => left) (fun _ begins _ => fine begins) ?_ performed).1
      refine ⟨fun _ _ on => on.elim, fun _ _ _ => .inr ?_, fun _ _ => trivial⟩
      exact ⟨fun on => on, fun _ => trivial⟩

/-! ## The model -/

/-- The model has a true literal of the clause, or the clause is a tautology, or two of
its variables have no value in the model. -/
def ModelSettles (s : Solver) (c : List Lit) : Prop :=
  (∃ l ∈ c, s.modelValue l = .holds) ∨ (∃ l ∈ c, -l ∈ c) ∨
    ∃ l ∈ c, ∃ m ∈ c, l.var ≠ m.var ∧ s.model[l.var.index]? = some .unknown ∧
      s.model[m.var.index]? = some .unknown

/-- The model consists of the values of the variables. -/
def ModelOf (s' s : Solver) : Prop := s'.model = s.assignment

theorem ModelOf.getElem? (same : s'.ModelOf s) (v : Var) (x : Truth) :
    s'.model[v.index]? = some x ↔ s.value v = .ok x := by
  unfold ModelOf at same
  rw [same]
  exact DenseMap.get_eq_ok.symm

theorem ModelOf.modelValue (same : s'.ModelOf s) {l : Lit} {x : Truth}
    (read : s.litValue l = .ok x) : s'.modelValue l = x := by
  obtain ⟨y, value, flipped⟩ := Trail.litValue_eq_ok.mp read
  have found : s'.model[l.var.index]? = some y := (same.getElem? l.var y).mpr value
  simp only [Solver.modelValue, found, flipped]

/-- A clause that the trail settles is settled by the model taken from it. -/
theorem ModelOf.settles (same : s'.ModelOf s) (w : s.net.trail.WF) (settled : s.net.Settles c) :
    s'.ModelSettles c := by
  rcases settled with ⟨l, hl, true_⟩ | ⟨l, hl, neg, -⟩ | ⟨l, hl, m, hm, ne, first, second⟩
  · exact .inl ⟨l, hl, same.modelValue (w.holds_iff.mpr true_)⟩
  · exact .inr (.inl ⟨l, hl, neg⟩)
  · exact .inr (.inr ⟨l, hl, m, hm, ne, (same.getElem? _ _).mpr first,
      (same.getElem? _ _).mpr second⟩)

/-- A search that answers yes leaves a model of all variables that settles every clause
submitted.  The variables without a value in it are not to be decided; if there are none
of that kind, the model satisfies every clause. -/
theorem model_settles (run : Reaches options BeginsQuietly calls s)
    (solved : s.perform fuel .solve = .ok (s', .truth .holds)) :
    s'.model.size = s'.numVars ∧
      (∀ c ∈ submitted calls, s'.ModelSettles c) ∧
      (∀ v : Var, s'.model[v.index]? = some .unknown → s'.order.eligible.get v = .ok false) ∧
      ((∀ v : Var, v.index < s'.numVars → s'.order.eligible.get v = .ok true) →
        (∀ v : Var, s'.model[v.index]? ≠ some .unknown) ∧
          ∀ c ∈ submitted calls, ∃ l ∈ c, s'.modelValue l = .holds) := by
  obtain ⟨⟨s₁, answer⟩, searched, done⟩ := bind_eq_ok.mp solved
  cases done
  have ready := run.visited
  rcases ready.inv.solve ready.idle (fun _ _ => trivial) searched with ⟨-, no, -⟩ | concluded
  · cases no
  · -- the model holds the values of the state in which the search found nothing to decide
    obtain ⟨s₀, running, quiet, decided, same, eligible⟩ := concluded.holds rfl
    have same : s'.ModelOf s₀ := same
    have i := running.inv
    have w := i.net.wf.trail
    have size : s'.numVars = s₀.numVars := by
      have vars : s'.order.eligible.size = s'.net.trail.values.size := concluded.inv.covers.size
      have vars₀ : s₀.order.eligible.size = s₀.net.trail.values.size := i.covers.size
      unfold numVars Trail.numVars
      rw [← vars, ← vars₀, eligible]
    have settled : ∀ c ∈ submitted calls, s₀.net.Settles c := fun c hc =>
      i.idle.settles ⟨trivial, running.ok⟩ quiet.1 hc
    have ineligible : ∀ v : Var, s'.model[v.index]? = some .unknown →
        s'.order.eligible.get v = .ok false := by
      intro v unknown
      have unknown : s₀.net.trail.values.get v = .ok .unknown := (same.getElem? v _).mp unknown
      have inside : v.index < s₀.order.eligible.size :=
        i.covers.size ▸ DenseMap.toIndex_lt unknown
      obtain ⟨may, read⟩ : ∃ may, s₀.order.eligible.get v = .ok may :=
        DenseMap.exists_get.mpr inside
      rw [eligible, read]
      cases may with
      | false => rfl
      | true => exact absurd unknown (decided read)
    refine ⟨?_, fun c hc => same.settles w (settled c hc), ineligible, fun all => ?_⟩
    · have model : s'.model.size = s₀.numVars := congrArg Array.size same
      exact model.trans size.symm
    · have total : ∀ v : Var, s'.model[v.index]? ≠ some .unknown := by
        intro v unknown
        have inside : v.index < s₀.numVars :=
          DenseMap.toIndex_lt ((same.getElem? v _).mp unknown)
        have may := all v (size ▸ inside)
        exact absurd (may.symm.trans (ineligible v unknown)) nofun
      refine ⟨total, fun c hc => ?_⟩
      obtain ⟨l, hl, true_⟩ := Network.Settles.satisfied w (settled c hc)
        fun v _ unknown => total v ((same.getElem? v _).mpr unknown)
      exact ⟨l, hl, same.modelValue true_⟩

/-- The model that a search finds at once. -/
def finds (s : Solver) : Option (Array Truth) :=
  match s.perform 2 .solve with
  | .ok (s', .truth .holds) => some s'.model
  | _ => none

/-- A fact and a variable that is decided make up a model. -/
theorem fact_modelled : ∃ s s',
    Reaches {} BeginsQuietly [.newVar {}, .newVar {}, .pushLevel, .addClause [⟨⟨1⟩, true⟩]] s ∧
      s.perform 2 .solve = .ok (s', .truth .holds) ∧ s'.model = #[.fails, .holds] ∧
      ∀ c ∈ submitted [.newVar {}, .newVar {}, .pushLevel, .addClause [⟨⟨1⟩, true⟩]],
        s'.ModelSettles c := by
  have found : ∃ s ∈ (create {} false none).toOption, ∃ s' ∈ s.playAll BeginsQuietly
      [.newVar {}, .newVar {}, .pushLevel, .addClause [⟨⟨1⟩, true⟩]],
      s'.finds = some #[.fails, .holds] := by
    decide +kernel
  obtain ⟨s, run, model⟩ := exists_played found
  unfold finds at model
  split at model
  next s' solved =>
    obtain ⟨-, settles, -, -⟩ := model_settles run solved
    exact ⟨s, s', run, solved, Option.some.inj model, settles⟩
  next => cases model

end Solver

end Cdcl
