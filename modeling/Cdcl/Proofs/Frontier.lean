import Cdcl.Proofs.Lessons
import Cdcl.Proofs.Success.Shortening
import Mathlib.Logic.Relation

/-!
# What unreliable literals are replaced by

An implied literal that may not be learnt gives way to its premises, and those of them that
may not be learnt give way in turn.  Premises are shared, and a premise may be met on several
ways; since a variable stays marked when its literal has been replaced, each is taken in once
and replaced once.  What is left is the frontier: the variables that may be learnt and are
reached from the literals at the start by such steps.

* `Expands`, `Stems`, `Frontier` — what the replacing should leave, told from the trail, the
  reasons and the flags alone;
* `Tracing`, `Tracing.replace` — what is known of the marks, and one turn of the loop;
* `Tracing.marked_of_stems` — at the end the marks are closed under the steps;
* `teach` — the analysis from the replacing on, and `analyze_eq_gather`;
* `replacement_exact` — whatever the analysis calls the loop with, the frontier is left.
-/

namespace Cdcl.Solver

open Network (Regime)

variable {g : Regime} {s s₀ s' : Solver} {v w : Var} {k : Nat} {start : List Lit}
  {options : Options} {calls : List Call}

/-! ## The frontier -/

/-- The variable `v` is implied and unreliable, and `w` is the variable of a premise of it,
above the root level. -/
structure Expands (s : Solver) (v w : Var) : Prop where
  unreliable : s.isReliable v = .ok false
  premise : ∃ why ps, s.net.trail.reasonOf v = .ok why ∧ why ≠ .decision ∧
    s.net.premises why = .ok ps ∧ ∃ q ∈ ps, q.var = w
  above : ∃ k, s.net.trail.levelOf w = .ok k ∧ 0 < k

/-- The variable is reached from one of the literals. -/
def Stems (s : Solver) (start : List Lit) (v : Var) : Prop :=
  ∃ l ∈ start, Relation.ReflTransGen s.Expands l.var v

/-- The variable may be learnt, and it is reached from one of the literals. -/
structure Frontier (s : Solver) (start : List Lit) (v : Var) : Prop where
  assigned : ∃ m ∈ s.net.trail.lits, m.var = v
  above : ∃ k, s.net.trail.levelOf v = .ok k ∧ 0 < k
  admissible : s.isReliable v = .ok true ∨ s.net.trail.reasonOf v = .ok .decision
  stems : s.Stems start v

/-- The variable is implied and unreliable. -/
def Unfit (s : Solver) (v : Var) : Prop :=
  s.isReliable v = .ok false ∧ ∃ why, s.net.trail.reasonOf v = .ok why ∧ why ≠ .decision

theorem Expands.unfit (x : s.Expands v w) : s.Unfit v :=
  have ⟨why, _, origin, implied, _⟩ := x.premise
  ⟨x.unreliable, why, origin, implied⟩

theorem Unfit.not_admissible {l : Lit} (x : s.Unfit l.var) : ¬s.Admissible l := by
  rintro ⟨reliable, why, tested, origin, fine⟩
  obtain ⟨unreliable, why', origin', implied⟩ := x
  cases unreliable.symm.trans tested
  cases origin.symm.trans origin'
  exact implied (by simpa using fine)

theorem Frontier.not_unfit (f : s.Frontier start v) : ¬s.Unfit v := by
  rintro ⟨unreliable, why, origin, implied⟩
  rcases f.admissible with reliable | decided
  · cases unreliable.symm.trans reliable
  · exact implied (Except.ok.inj (origin.symm.trans decided))

theorem Retains.unfit (k : s.Retains s') (x : s.Unfit v) : s'.Unfit v := by
  unfold Unfit isReliable at x ⊢
  rwa [k.info, k.trail]

/-! ## One turn of the loop -/

/-- What is known of the marks while literals are replaced: `start` are the literals with
which the loop was called on `s₀`, and `k` is the level of the asserting literal. -/
structure Tracing (s₀ : Solver) (start : List Lit) (k : Nat) (s : Solver)
    (lits marked : List Lit) : Prop where
  retains : s₀.Retains s
  record : s.Listed marked
  once : (marked.map Lit.var).Nodup
  grown : start <+: marked
  low : ∀ l ∈ marked, ∃ j, s₀.net.trail.levelOf l.var = .ok j ∧ j < k
  stems : ∀ l ∈ marked, s₀.Stems start l.var
  settled : ∀ l ∈ marked, (∃ m ∈ lits, m.var = l.var) ∨ s₀.Unfit l.var
  count : s.stats.replacedLiterals + lits.length = s₀.stats.replacedLiterals + marked.length
  order : ((marked.drop start.length).map Lit.var).foldlM Order.bump s₀.order = .ok s.order

/-- A premise of a literal that is replaced is a step further. -/
theorem Replaces.expands {lits lits' marked marked' : Array Lit} {i : Nat} {q l : Lit}
    {why : Reason} {ps : List Lit} {j : Nat} (b : Footing g s) (kin : s₀.Kin s)
    (same : s₀.Retains s) (replacing : Replacing g s k start lits.toList)
    (r : Replaces s lits marked i q why ps s' lits' marked') (premise : l ∈ ps)
    (level : s.net.trail.levelOf l.var = .ok j) (above : 0 < j) :
    s₀.Expands q.var l.var := by
  have hq : q ∈ lits.toList := Array.mem_toList_iff.mpr (Array.mem_of_getElem? r.there)
  obtain ⟨n, m, ps', -, -, behind, -⟩ := replacing.reason b hq r.origin r.implied
  cases premises_eq r.premises behind
  have read := Network.premises_of_behind (kin.net.behind.mp behind)
  obtain ⟨unreliable, _⟩ : s₀.Unfit q.var :=
    same.symm.unfit ⟨r.unreliable, why, r.origin, r.implied⟩
  exact ⟨unreliable, ⟨why, ps, same.trail ▸ r.origin, r.implied, read, l, premise, rfl⟩,
    j, same.trail ▸ level, above⟩

/-- The premises that are taken in are reached, and the literal they replace is not left. -/
theorem Tracing.replace {lits lits' marked marked' : Array Lit} {i : Nat} {q : Lit}
    {why : Reason} {ps : List Lit} (b : Footing g s) (kin : s₀.Kin s)
    (replacing : Replacing g s k start lits.toList)
    (t : Tracing s₀ start k s lits.toList marked.toList)
    (r : Replaces s lits marked i q why ps s' lits' marked') :
    Tracing s₀ start k s' lits'.toList marked'.toList := by
  obtain ⟨-, replacing'⟩ := replacing.absorb b r
  obtain ⟨new, a⟩ := absorbPremises_spec r.absorbed
  have same : s.Retains s' := ⟨a.ticks.retains.info, a.ticks.retains.trail⟩
  have retains := t.retains.trans same
  have perm := swapErase_perm r.there
  have inside : ∀ l ∈ new, l ∈ lits'.toList := fun l hl =>
    a.collected ▸ List.mem_append_right _ hl
  have record : s'.Listed marked'.toList := a.listed t.record
  rw [a.recorded] at record ⊢
  refine ⟨retains, record, ?_, t.grown.trans (List.prefix_append _ _), fun l hl => ?_,
    fun l hl => ?_, fun l hl => ?_, ?_, ?_⟩
  · rw [List.map_append, List.nodup_append]
    refine ⟨t.once, a.once, ?_⟩
    intro u hu v hv same
    obtain ⟨l, hl, rfl⟩ := List.mem_map.mp hu
    obtain ⟨m, hm, rfl⟩ := List.mem_map.mp hv
    exact a.fresh m hm (same ▸ (t.record l.var).mpr ⟨l, hl, rfl⟩)
  · rcases List.mem_append.mp hl with old | fresh
    · exact t.low l old
    · obtain ⟨j, level, -, low⟩ := replacing'.level l (inside l fresh)
      exact ⟨j, retains.trail ▸ level, low⟩
  · rcases List.mem_append.mp hl with old | fresh
    · exact t.stems l old
    · -- the literal that is replaced is marked, so it has been reached before
      obtain ⟨j, level, above⟩ := a.above l fresh
      have marked_ := replacing.marked q (perm.mem_iff.mp List.mem_cons_self)
      obtain ⟨m, hm, var⟩ := (t.record q.var).mp marked_
      obtain ⟨l₀, first, way⟩ := t.stems m hm
      rw [var] at way
      have step := r.expands b kin t.retains replacing (a.source l fresh) level above
      exact ⟨l₀, first, way.tail step⟩
  · rcases List.mem_append.mp hl with old | fresh
    · rcases t.settled l old with ⟨m, hm, var⟩ | unfit
      · rcases List.mem_cons.mp (perm.mem_iff.mpr hm) with rfl | hm
        · have unfit : s.Unfit m.var := ⟨r.unreliable, why, r.origin, r.implied⟩
          exact .inr (var ▸ t.retains.symm.unfit unfit)
        · exact .inl ⟨m, a.collected ▸ List.mem_append_left _ hm, var⟩
      · exact .inr unfit
    · exact .inl ⟨l, inside l fresh, rfl⟩
  · have count := t.count
    have length := perm.length_eq
    have counted : s'.stats.replacedLiterals = s.stats.replacedLiterals + 1 :=
      congrArg Statistics.replacedLiterals a.stats
    rw [List.length_cons] at length
    rw [counted, a.collected, List.length_append, List.length_append]
    omega
  · rw [List.drop_append_of_le_length t.grown.length_le, List.map_append, List.foldlM_append]
    exact bind_eq_ok.mpr ⟨s.order, t.order, a.order⟩

/-! ## The end of the loop -/

/-- The marks are closed under the steps when every literal that is left may be learnt. -/
theorem Tracing.marked_of_stems {lits marked : List Lit} (t : Tracing s₀ start k s lits marked)
    (kin : s₀.Kin s) (covered : s.Covered lits) (fine : ∀ l ∈ lits, s.Admissible l)
    (h : s₀.Stems start v) : s.Marked v := by
  obtain ⟨l, first, way⟩ := h
  induction way with
  | refl => exact (t.record l.var).mpr ⟨l, t.grown.subset first, rfl⟩
  | @tail v w way step ih =>
      rcases covered v ih with ⟨m, hm, rfl⟩ | ⟨i, m, why, ps, at_, rfl, behind, premises⟩
      · exact absurd (fine m hm) (t.retains.unfit step.unfit).not_admissible
      · obtain ⟨why', ps', origin, -, read, q, hq, rfl⟩ := step.premise
        obtain ⟨j, level, above⟩ := step.above
        cases at_.origin.symm.trans (t.retains.trail ▸ origin)
        cases premises_eq read (kin.net.behind.mp behind)
        rcases premises q hq with marked_ | root
        · exact marked_
        · rw [t.retains.trail] at root
          cases level.symm.trans root
          exact absurd above (Nat.lt_irrefl 0)

/-! ## The analysis -/

/-- The analysis from the replacing on. -/
def teach (gathered : Solver × Option (Lit × List Lit)) : Except Fault (Solver × Option Lesson) := do
  testLesson (← compose gathered)

/-- The analysis gathers a clause and then teaches it. -/
theorem analyze_eq_gather (s : Solver) (id : ClauseId) : s.analyze id = s.gather id >>= teach :=
  bind_assoc _ _ _

/-- Nothing after the resolution along the trail touches the asserting literal. -/
theorem teach_asserting {s₁ : Solver} {p : Lit} {others : List Lit} {lesson : Lesson}
    (h : teach (s₁, some (p, others)) = .ok (s', some lesson)) : lesson.asserting = -p := by
  obtain ⟨_, composed, h⟩ := bind_eq_ok.mp h
  obtain ⟨rfl, -⟩ := testLesson_eq_ok h
  obtain ⟨_, _, _, _, _, _, -, -, -, -, -, same⟩ := compose_eq_ok composed
  cases same
  rfl

/-- Every literal above the root level that is no decision has premises, which became false
before it. -/
def Founded (s : Solver) : Prop :=
  ∀ {i l r}, s.net.Assigned i l r → r ≠ .decision →
    ∃ ps, s.net.Behind l ps r ∧ ∀ q ∈ ps, ∃ j < i, s.net.trail.lits[j]? = some (-q)

theorem Reasoned.founded (reasoned : s.Reasoned) : s.Founded := by
  intro i l r at_ ne
  obtain ⟨ps, id, c, m⟩ := reasoned at_ ne
  exact ⟨ps, m.behind ne, m.before⟩

theorem entails_of_contradiction (c : List Lit) : Entails [[]] c := by
  intro σ model
  obtain ⟨l, none_, -⟩ := model [] List.mem_cons_self
  exact absurd none_ List.not_mem_nil

/-- What follows does not matter here, so the formula is a contradiction; only that premises
are false and stand before what they imply is made use of. -/
theorem Founded.footing (founded : s.Founded) (w : s.net.trail.WF) : Footing (given [[]]) s where
  trail := w
  reasons at_ ne := by
    obtain ⟨ps, behind, before⟩ := founded at_ ne
    refine ⟨ps, behind, fun q hq => ?_⟩
    obtain ⟨j, lt, there⟩ := before q hq
    exact ⟨j, -q, lt, there, rfl⟩
  implied _ i l r ps at_ behind := by
    have ne : r ≠ .decision := by
      rintro rfl
      exact behind
    obtain ⟨ps', behind', before⟩ := founded at_ ne
    cases behind.unique behind'
    refine ⟨fun q hq => ?_, entails_of_contradiction _⟩
    obtain ⟨j, -, there⟩ := before q hq
    exact Array.mem_of_getElem? there
  root _ _ _ := entails_of_contradiction _

/-- What the replacing leaves, called with the literals `start` when `p` is the asserting
literal, before it is negated. -/
structure Replaced (s : Solver) (p : Lit) (start : List Lit) (s' : Solver)
    (lits marked : List Lit) : Prop where
  /-- The variables of the literals that are left are those of the frontier. -/
  frontier : ∀ v, v ∈ lits.map Lit.var ↔ s.Frontier start v
  once : (lits.map Lit.var).Nodup
  /-- The clause is still false. -/
  false_ : ∀ l ∈ -p :: lits, s.net.trail.litValue l = .ok .fails
  /-- Whatever has been marked is listed. -/
  recorded : ∀ v, s'.Marked v ↔ v ∈ marked.map Lit.var
  /-- The variables that have been marked are those that are reached. -/
  reached : ∀ v, s'.Marked v ↔ s.Stems start v
  grown : start <+: marked ∧ (marked.map Lit.var).Nodup
  /-- As many literals have been replaced as variables are listed that are not left. -/
  count : s'.stats.replacedLiterals + lits.length = s.stats.replacedLiterals + marked.length
  /-- The variables listed in the loop have become more active, one after another. -/
  order : ((marked.drop start.length).map Lit.var).foldlM Order.bump s.order = .ok s'.order
  /-- The asserting variable takes no part. -/
  untouched : ¬s.Marked p.var ∧ p.var ∉ marked.map Lit.var ∧ p.var ∉ lits.map Lit.var
  retains : s.Retains s'

/-- The loop is called with the literals that are marked. -/
theorem Resolved.tracing {p : Lit} (ends : Resolved g s p start)
    (replacing : Replacing g s k start start) : Tracing s start k s start start where
  retains := .refl s
  record := ends.marked
  once := replacing.once
  grown := List.prefix_refl start
  low l hl := (replacing.level l hl).imp fun _ level => ⟨level.1, level.2.2⟩
  stems l hl := ⟨l, hl, .refl⟩
  settled l hl := .inl ⟨l, hl, rfl⟩
  count := rfl
  order := by
    rw [List.drop_length]
    rfl

/-- The loop keeps track of the frontier from its start to its end. -/
theorem replaceAll_tracing {lits marked : Array Lit} (b : Footing g s)
    (replacing : Replacing g s k start start) (tracing : Tracing s start k s start start)
    (h : s.replaceAll start = .ok (s', lits, marked)) :
    s.Kin s' ∧ Replacing g s' k start lits.toList ∧
      Tracing s start k s' lits.toList marked.toList := by
  obtain ⟨-, kept, -⟩ := replaceUnreliable_rule
    (P := fun s₁ lits marked _ => s.Kin s₁ ∧ Replacing g s₁ k start lits.toList ∧
      Tracing s start k s₁ lits.toList marked.toList)
    (fun kept _ _ => kept)
    (fun ⟨k₁, replacing₁, t₁⟩ r =>
      have b₁ := k₁.footing b
      have ⟨k₂, replacing₂⟩ := replacing₁.absorb b₁ r
      ⟨k₁.trans k₂, replacing₂, t₁.replace b₁ k₁ replacing₁ r⟩)
    h ⟨.refl s, replacing, tracing⟩
  exact kept

/-- The replacing leaves the frontier of the literals that the walk along the trail has
collected. -/
theorem Resolved.replaced {p : Lit} {lits marked : Array Lit} (b : Footing g s) (on : g.sound)
    (ends : Resolved g s p start) (h : s.replaceAll start = .ok (s', lits, marked)) :
    Replaced s p start s' lits.toList marked.toList := by
  obtain ⟨k, levelP, positive, lower⟩ := ends.level
  have replacing₀ := ends.replacing lower
  obtain ⟨kin, replacing, t⟩ := replaceAll_tracing b replacing₀ (ends.tracing replacing₀) h
  obtain ⟨admissible, -, -⟩ := replaceUnreliable_admissible h
  have fine : ∀ l ∈ lits.toList, s'.Admissible l := fun l hl =>
    admissible l (Array.mem_toList_iff.mp hl)
  have trail := t.retains.trail
  have recorded : ∀ v, s'.Marked v ↔ v ∈ marked.toList.map Lit.var := fun v => by
    rw [t.record v, List.mem_map]
  have reached : ∀ v, s'.Marked v ↔ s.Stems start v := fun v => by
    refine ⟨fun yes => ?_, t.marked_of_stems kin replacing.covered fine⟩
    obtain ⟨l, hl, rfl⟩ := (t.record v).mp yes
    exact t.stems l hl
  have away : p.var ∉ marked.toList.map Lit.var := by
    intro inside
    obtain ⟨l, hl, var⟩ := List.mem_map.mp inside
    obtain ⟨j, level, low⟩ := t.low l hl
    rw [var] at level
    cases levelP.symm.trans level
    exact Nat.lt_irrefl k low
  refine ⟨fun v => ⟨fun inside => ?_, fun f => ?_⟩, replacing.once, fun l hl => ?_, recorded,
    reached, ⟨t.grown, t.once⟩, t.count, t.order, ⟨fun yes => ?_, away, fun inside => ?_⟩,
    t.retains⟩
  · obtain ⟨l, hl, rfl⟩ := List.mem_map.mp inside
    obtain ⟨j, level, above, -⟩ := replacing.level l hl
    exact ⟨trail ▸ replacing.placed l hl, ⟨j, trail ▸ level, above⟩,
      (t.retains.symm.admissible (fine l hl)).cases, (reached l.var).mp (replacing.marked l hl)⟩
  · obtain ⟨m, hm, rfl⟩ := (t.record v).mp ((reached v).mpr f.stems)
    rcases t.settled m hm with ⟨l, hl, var⟩ | unfit
    · exact List.mem_map.mpr ⟨l, hl, var⟩
    · exact absurd unfit f.not_unfit
  · refine b.trail.fails_iff.mpr ?_
    rcases List.mem_cons.mp hl with rfl | hl
    · rw [Lit.neg_neg]
      exact ends.mem
    · exact trail ▸ replacing.false_ on l hl
  · obtain ⟨l, hl, var⟩ := (ends.marked p.var).mp yes
    exact away (List.mem_map.mpr ⟨l, t.grown.subset hl, var⟩)
  · obtain ⟨l, hl, var⟩ := List.mem_map.mp inside
    exact away ((recorded p.var).mp (var ▸ replacing.marked l hl))

/-- Wherever the trail is well-formed and the premises of a literal became false before it,
the analysis of a false clause calls the replacing with literals of which it leaves exactly
the frontier.  The loop ends; all that may stop it is an activity that is not a number.  What
it marks is what is reached, and all of it is listed, each variable once.  The asserting
literal is learnt as it is. -/
theorem replacement_exact {id : ClauseId} {c : Clause} (w : s.net.trail.WF) (fitted : s.Fitted)
    (founded : s.Founded) (read : s.net.clause id = .ok c)
    (false_ : ∀ l ∈ c.lits, s.net.trail.litValue l = .ok .fails) :
    s.analyze id = s.gather id >>= teach ∧
      ∀ s₁ p others, s.gather id = .ok (s₁, some (p, others)) →
        (∀ s' lesson, teach (s₁, some (p, others)) = .ok (s', some lesson) →
          lesson.asserting = -p) ∧
        (∀ f, s₁.replaceAll others = .error f → f = .incomparableActivities) ∧
        ∀ s₂ lits marked, s₁.replaceAll others = .ok (s₂, lits, marked) →
          Replaced s₁ p others s₂ lits.toList marked.toList := by
  refine ⟨analyze_eq_gather s id, fun s₁ p others gathered => ?_⟩
  obtain ⟨entry, clear, -, resolving, -⟩ := gather_eq_ok gathered
  have k₀ : s.Kin (s.log (.analyze entry.place s.level)) := kin_log rfl _
  have rejects : Rejects (given [[]]) s id :=
    ⟨c.body, Arena.body?_of_get read, fun l hl => w.fails_iff.mp (false_ l hl),
      fun _ => entails_of_contradiction _⟩
  have b₀ := k₀.footing (founded.footing w)
  obtain ⟨k₁, ends⟩ := resolve_resolved b₀ rejects clear resolving
  have b₁ := k₁.footing b₀
  have fitted₁ := ((log_touches s _).trans (resolve_ticks resolving).touches).fitted fitted
  have ends : Resolved (given [[]]) s₁ p others := ends
  obtain ⟨k, -, -, lower⟩ := ends.level
  refine ⟨fun _ _ => teach_asserting, ?_, fun _ _ _ => ends.replaced b₁ trivial⟩
  refine failsOnly_replaceUnreliable rfl b₁ fitted₁ (ends.replacing lower) ?_
  have bound := unmarked_le fitted₁
  rw [List.size_toArray]
  omega

/-- Four unreliable variables are implied at the first level, with premises in common: of the
two that a conflict of the second level leaves, the one is a premise of the other. -/
def sharedPremises : List Call :=
  [.newVar {}, .newVar {}, .newVar {}, .newVar {}, .newVar {}, .newVar {}, .newVar {}, .newVar {},
    .setReliable ⟨1⟩ false, .setReliable ⟨2⟩ false, .setReliable ⟨3⟩ false,
    .setReliable ⟨5⟩ false,
    .addClause [⟨⟨0⟩, false⟩, ⟨⟨1⟩, true⟩], .addClause [⟨⟨0⟩, false⟩, ⟨⟨2⟩, true⟩],
    .addClause [⟨⟨1⟩, false⟩, ⟨⟨2⟩, false⟩, ⟨⟨3⟩, true⟩],
    .addClause [⟨⟨2⟩, false⟩, ⟨⟨4⟩, true⟩],
    .addClause [⟨⟨1⟩, false⟩, ⟨⟨3⟩, false⟩, ⟨⟨4⟩, false⟩, ⟨⟨5⟩, true⟩],
    .addClause [⟨⟨5⟩, false⟩, ⟨⟨3⟩, false⟩, ⟨⟨6⟩, false⟩, ⟨⟨7⟩, true⟩],
    .addClause [⟨⟨5⟩, false⟩, ⟨⟨6⟩, false⟩, ⟨⟨7⟩, false⟩],
    .decide ⟨⟨0⟩, true⟩, .propagate, .decide ⟨⟨6⟩, true⟩, .propagate]

/-- Two literals are left of six that were marked, and a shared premise is marked once. -/
theorem shared_premises_replaced :
    ∃ (s s₁ s₂ : Solver) (c : Clause) (lits marked : Array Lit), s.net.trail.WF ∧ s.Fitted ∧
      s.Founded ∧ s.net.clause ⟨5⟩ = .ok c ∧
      (∀ l ∈ c.lits, s.net.trail.litValue l = .ok .fails) ∧
      s.gather ⟨5⟩ = .ok (s₁, some (⟨⟨6⟩, true⟩, [⟨⟨3⟩, false⟩, ⟨⟨5⟩, false⟩])) ∧
      s₁.replaceAll [⟨⟨3⟩, false⟩, ⟨⟨5⟩, false⟩] = .ok (s₂, lits, marked) ∧
      lits.toList.map Lit.var = [⟨4⟩, ⟨0⟩] ∧
      marked.toList.map Lit.var = [⟨3⟩, ⟨5⟩, ⟨2⟩, ⟨1⟩, ⟨4⟩, ⟨0⟩] ∧
      Replaced s₁ ⟨⟨6⟩, true⟩ [⟨⟨3⟩, false⟩, ⟨⟨5⟩, false⟩] s₂ lits.toList marked.toList := by
  have found : ∃ s ∈ (create {} false none).toOption,
      ∃ s' ∈ s.playAll AddsAtRoot sharedPremises,
        (∃ c ∈ (s'.net.clause ⟨5⟩).toOption,
          ∀ l ∈ c.lits, s'.net.trail.litValue l = .ok .fails) ∧
        ∃ r ∈ (s'.gather ⟨5⟩).toOption,
          r.2 = some (⟨⟨6⟩, true⟩, [⟨⟨3⟩, false⟩, ⟨⟨5⟩, false⟩]) ∧
          ∃ t ∈ (r.1.replaceAll [⟨⟨3⟩, false⟩, ⟨⟨5⟩, false⟩]).toOption,
            t.2.1.toList.map Lit.var = [⟨4⟩, ⟨0⟩] ∧
            t.2.2.toList.map Lit.var = [⟨3⟩, ⟨5⟩, ⟨2⟩, ⟨1⟩, ⟨4⟩, ⟨0⟩] := by
    set_option synthInstance.maxSize 512 in decide +kernel
  obtain ⟨s, run, ⟨c, read, false_⟩, ⟨s₁, _⟩, gathered, rfl, ⟨s₂, lits, marked⟩, replaced, left,
    listed⟩ := exists_played found
  have w := run.standing.inv.net.wf.trail
  have reasoned : s.Reasoned := run.reasoned
  have founded : s.Founded := reasoned.founded
  have read := eq_ok_of_toOption read
  have gathered := eq_ok_of_toOption gathered
  have replaced := eq_ok_of_toOption replaced
  obtain ⟨-, exact_⟩ := replacement_exact w run.sane.fitted founded read false_
  obtain ⟨-, -, leaves⟩ := exact_ _ _ _ gathered
  exact ⟨s, s₁, s₂, c, lits, marked, w, run.sane.fitted, founded, read, false_, gathered,
    replaced, left, listed, leaves _ _ _ replaced⟩

end Cdcl.Solver
