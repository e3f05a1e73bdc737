import Cdcl.Proofs.Reasons
import Cdcl.Proofs.Shortening

/-!
# What a conflict teaches

The analysis of a conflict is right wherever the trail and the reasons are in order,
whether or not a run of calls leads to such a state, and whatever is said of the variables
that may occur in a clause to learn.

* `Network.Implied` — a literal has been implied by a stored clause, all of whose other
  literals became false before;
* `Solver.holdings` — the stored clauses and the facts of the root level, as a formula;
* `Reasoned.footing` — where every reason is a stored clause, the analysis may rely on it;
* `analyze_entailed` — the clause to learn follows from the holdings.
-/

namespace Cdcl

namespace Network

/-- The literals of the stored clauses. -/
def contents (n : Network) : List (List Lit) :=
  n.ids.filterMap fun id => (n.body? id).map Clause.lits

theorem mem_contents_of {n : Network} {id : ClauseId} {c : Clause} (inside : id ∈ n.ids)
    (stored : n.body? id = some c) : c.lits ∈ n.contents :=
  List.mem_filterMap.mpr ⟨id, inside, by rw [stored]; rfl⟩

/-- The literal at place `i` of the trail was implied, for the reason, by a stored clause.
Its other literals became false before, and if the reason names a clause, it is that one, and
the literal comes first in it. -/
structure Implied (n : Network) (i : Nat) (l : Lit) (r : Reason) (ps : List Lit) (id : ClauseId)
    (c : Clause) : Prop where
  premises : n.premises r = .ok ps
  before : ∀ q ∈ ps, ∃ j < i, n.trail.lits[j]? = some (-q)
  stored : id ∈ n.ids
  clause : n.clause id = .ok c
  perm : c.lits.Perm (l :: ps)
  named : ∀ id', r = .clause id' → id' = id ∧ c.first = l

variable {n : Network} {i : Nat} {l : Lit} {r : Reason} {ps : List Lit} {id : ClauseId}
  {c : Clause}

/-- A stored clause that implied a literal is behind it on the trail. -/
theorem Implied.behind (m : n.Implied i l r ps id c) (implied : r ≠ .decision) :
    n.Behind l ps r := by
  have premises := m.premises
  cases r with
  | decision => exact absurd rfl implied
  | binary a =>
      cases premises
      rfl
  | ternary a b =>
      cases premises
      rfl
  | clause j =>
      obtain ⟨rfl, first⟩ := m.named j rfl
      obtain ⟨d, read, same⟩ := bind_eq_ok.mp premises
      cases m.clause.symm.trans read
      cases same
      exact ⟨c.body, Arena.body?_of_get read, first, rfl⟩

theorem Implied.false_ (m : n.Implied i l r ps id c) : ∀ q ∈ ps, -q ∈ n.trail.lits := by
  intro q hq
  obtain ⟨j, -, there⟩ := m.before q hq
  exact Array.mem_of_getElem? there

end Network

namespace Solver

open Network (Regime)

variable {s s' : Solver} {id : ClauseId} {c : Clause} {options : Options} {calls : List Call}

/-- The stored clauses and the facts of the root level. -/
def holdings (s : Solver) : List (List Lit) := s.net.contents ++ s.proved.map ([·])

/-- A stored clause is among the holdings. -/
theorem entails_stored (stored : id ∈ s.net.ids) (read : s.net.clause id = .ok c) :
    Entails s.holdings c.lits :=
  entails_of_mem (List.mem_append_left _
    (Network.mem_contents_of (c := c.body) stored (Arena.body?_of_get read)))

theorem entails_proved {l : Lit} (fact : l ∈ s.proved) : Entails s.holdings [l] :=
  entails_of_mem (List.mem_append_right _ (List.mem_map.mpr ⟨l, fact, rfl⟩))

/-- The regime of a formula that is known to be so. -/
def given (f : List (List Lit)) : Regime := ⟨f, [], True, False, fun _ => True⟩

/-- Every literal above the root level that is no decision was implied by a stored clause. -/
def Reasoned (s : Solver) : Prop :=
  ∀ {i l r}, s.net.Assigned i l r → r ≠ .decision →
    ∃ ps id c, s.net.Implied i l r ps id c

/-- The analysis may rely on reasons that are stored clauses. -/
theorem Reasoned.footing (reasoned : s.Reasoned) (w : s.net.trail.WF) :
    Footing (given s.holdings) s where
  trail := w
  reasons at_ ne := by
    obtain ⟨ps, id, c, m⟩ := reasoned at_ ne
    refine ⟨ps, m.behind ne, fun q hq => ?_⟩
    obtain ⟨j, lt, there⟩ := m.before q hq
    exact ⟨j, -q, lt, there, rfl⟩
  implied _ i l r ps at_ behind := by
    have ne : r ≠ .decision := by
      rintro rfl
      exact behind
    obtain ⟨ps', id, c, m⟩ := reasoned at_ ne
    cases behind.unique (m.behind ne)
    refine ⟨m.false_, fun σ model => ?_⟩
    obtain ⟨y, inside, true_⟩ := entails_stored m.stored m.clause σ model
    exact ⟨y, m.perm.mem_iff.mp inside, true_⟩
  root _ _ fact := entails_proved (by rwa [proved, Trail.root_eq])

/-- The clause that an analysis answers with; it is empty if the conflict follows from the
root level. -/
def learntClause : Option Lesson → List Lit
  | some lesson => lesson.asserting :: lesson.others
  | none => []

/-- The clause that is learnt from a conflict follows from the stored clauses and the facts
of the root level; in particular, if it is empty, these cannot be satisfied together.  It is
enough that the trail is well-formed, that each reason is a stored clause, and that the
clause in conflict is stored and false. -/
theorem analyze_entailed (w : s.net.trail.WF) (reasoned : s.Reasoned)
    (stored : id ∈ s.net.ids) (read : s.net.clause id = .ok c)
    (false_ : ∀ l ∈ c.lits, s.net.trail.litValue l = .ok .fails) {result : Option Lesson}
    (h : s.analyze id = .ok (s', result)) :
    Entails s.holdings (learntClause result) ∧ (result = none → Unsatisfiable s.holdings) := by
  have entailed : Entails s.holdings c.lits := entails_stored stored read
  have rejects : Rejects (given s.holdings) s id :=
    ⟨c.body, Arena.body?_of_get read, fun l hl => w.fails_iff.mp (false_ l hl), fun _ => entailed⟩
  obtain ⟨-, concludes⟩ := analyze_taught (reasoned.footing w) rejects h
  cases result with
  | none =>
      have refuted : Unsatisfiable s.holdings := concludes trivial
      exact ⟨unsatisfiable_iff_entails_nil.mp refuted, fun _ => refuted⟩
  | some lesson =>
      have taught : Taught (given s.holdings) s' lesson := concludes
      exact ⟨taught.entails trivial, nofun⟩

/-- If clauses are added at the root level, reasons are stored clauses. -/
theorem Reaches.reasoned (run : Reaches options AddsAtRoot calls s) : s.Reasoned := by
  intro i l r at_ ne
  have net := (run.mono AddsAtRoot.rightly).ready.inv.net
  have w := net.wf.trail
  have above : s.net.trail.levelOf l.var ≠ .ok 0 := by
    intro root
    have low := (w.lt_cut_iff (k := 0) at_.here root).mpr (Nat.le_refl 0)
    exact Nat.not_lt.mpr at_.above low
  cases Network.explained net.wf (net.sound trivial) run.sane.sturdy at_.here above with
  | first decided =>
      cases at_.origin.symm.trans decided
      exact absurd rfl ne
  | @implied r' ps id c reason _ premises false_ stored read perm named =>
      cases at_.origin.symm.trans reason
      exact ⟨ps, id, c, premises, fun q hq => (false_ q hq).2, stored, read, perm, named⟩

/-- A conflict with an implied literal that may not be learnt. -/
def unreliableClash : List Call :=
  [.newVar {}, .newVar {}, .newVar {}, .setReliable ⟨1⟩ false,
    .addClause [⟨⟨0⟩, false⟩, ⟨⟨1⟩, true⟩], .addClause [⟨⟨1⟩, false⟩, ⟨⟨2⟩, true⟩],
    .addClause [⟨⟨1⟩, false⟩, ⟨⟨2⟩, false⟩], .decide ⟨⟨0⟩, true⟩, .propagate]

/-- The lesson is about the decision, as the literal between may not be learnt. -/
theorem unreliable_clash_entailed :
    ∃ (s s' : Solver) (id : ClauseId) (c : Clause) (result : Option Lesson), s.level = 1 ∧
      s.net.trail.WF ∧ s.Reasoned ∧ id ∈ s.net.ids ∧ s.net.clause id = .ok c ∧
      (∀ l ∈ c.lits, s.net.trail.litValue l = .ok .fails) ∧ s.analyze id = .ok (s', result) ∧
      learntClause result = [⟨⟨0⟩, false⟩] ∧ Entails s.holdings [⟨⟨0⟩, false⟩] := by
  have found : ∃ s ∈ (create {} false none).toOption,
      ∃ s' ∈ s.playAll AddsAtRoot unreliableClash, s'.level = 1 ∧ (⟨2⟩ : ClauseId) ∈ s'.net.ids ∧
        (∃ c ∈ (s'.net.clause ⟨2⟩).toOption,
          ∀ l ∈ c.lits, s'.net.trail.litValue l = .ok .fails) ∧
        ∃ r ∈ (s'.analyze ⟨2⟩).toOption, learntClause r.2 = [⟨⟨0⟩, false⟩] := by
    decide +kernel
  obtain ⟨s, run, level, stored, ⟨c, read, false_⟩, ⟨s', result⟩, analyzed, learnt⟩ :=
    exists_played found
  have w := run.standing.inv.net.wf.trail
  have read := eq_ok_of_toOption read
  have analyzed := eq_ok_of_toOption analyzed
  refine ⟨s, s', ⟨2⟩, c, result, level, w, run.reasoned, stored, read, false_, analyzed, learnt, ?_⟩
  exact learnt ▸ (analyze_entailed w run.reasoned stored read false_ analyzed).1

end Solver

end Cdcl
