import Cdcl.Solver.Analysis
import Cdcl.Proofs.Invariant
import Cdcl.Proofs.Simplifying

/-!
# Resolution along the trail

The first half of conflict analysis: literals of a false clause are resolved away, the
last assigned first, until one literal of the conflict level is left.

`Gathered` is the invariant of the walk.  Its ghost `here` lists the literals of the
conflict level that are still to be resolved; together with the literals collected so
far they are exactly the marked ones, and they form a clause that follows from the
formula.

* `absorb_gathered`, `settle_gathered` — taking a clause in, and going on at another level;
* `Walked` — what the walk does, place by place;
* `Walked.ends`, `resolve_resolved` — the walk ends with a clause that has one literal
  of the conflict level, or with a conflict that follows from the root level.
-/

namespace Cdcl.Solver

open Network (Regime)

variable {g : Regime} {t : Trail} {s s' : Solver} {r r' : Resolvent} {here : List Lit}
  {bound : Nat}

/-- The variable of the literal was assigned before place `bound` of the trail. -/
def Placed (t : Trail) (bound : Nat) (l : Lit) : Prop :=
  ∃ i m, i < bound ∧ t.lits[i]? = some m ∧ m.var = l.var

/-- What the analysis relies on: the premises of a reason stand before the literal that they
imply, and where the regime is sound, reasons and facts follow from the formula. -/
structure Footing (g : Regime) (s : Solver) : Prop where
  trail : s.net.trail.WF
  reasons : ∀ {i l why}, s.net.Assigned i l why → why ≠ .decision →
    ∃ ps, s.net.Behind l ps why ∧ ∀ q ∈ ps, Placed s.net.trail i q
  implied : g.sound → ∀ {i l why ps}, s.net.Assigned i l why → s.net.Behind l ps why →
    (∀ q ∈ ps, -q ∈ s.net.trail.lits) ∧ Entails g.formula (l :: ps)
  root : g.sound → ∀ {l}, l ∈ s.net.trail.upTo 0 → Entails g.formula [l]

/-- The analysis relies on nothing that bookkeeping changes. -/
theorem Kin.footing (k : s.Kin s') (b : Footing g s) : Footing g s' where
  trail := by
    rw [k.net.trail]
    exact b.trail
  reasons at_ ne := by
    obtain ⟨ps, behind, placed⟩ := b.reasons (k.net.assigned.mp at_) ne
    rw [k.net.trail]
    exact ⟨ps, k.net.behind.mpr behind, placed⟩
  implied on _ _ _ _ at_ behind := by
    rw [k.net.trail]
    exact b.implied on (k.net.assigned.mp at_) (k.net.behind.mp behind)
  root on := by
    rw [k.net.trail]
    exact b.root on

/-- A clause is false, and where the regime is sound, it follows from the formula. -/
def Rejects (g : Regime) (s : Solver) (id : ClauseId) : Prop :=
  ∃ c, s.net.body? id = some c ∧ (∀ l ∈ c.lits, -l ∈ s.net.trail.lits) ∧
    (g.sound → Entails g.formula c.lits)

/-- The analysis may rely on what the invariant says. -/
theorem Inv.footing {conflict : Option ClauseId} {missing : Option Var}
    (i : s.Inv g conflict missing) : Footing g s where
  trail := i.net.wf.trail
  reasons := i.net.wf.reasons
  implied on := (i.net.sound on).reasons
  root on := (i.net.sound on).root

theorem Inv.rejects {id : ClauseId} {missing : Option Var} (i : s.Inv g (some id) missing) :
    Rejects g s id :=
  have ⟨c, stored, false_⟩ := i.refutes rfl
  ⟨c, stored, false_, fun on => (i.net.sound on).clauses stored⟩

/-- The variable is marked. -/
def Marked (s : Solver) (v : Var) : Prop := s.seen.get v = .ok true

theorem not_marked {v : Var} (h : s.seen.get v = .ok false) : ¬s.Marked v := by
  intro yes
  rw [Marked, h] at yes
  cases yes

/-- When all flags are cleared, no variable is marked. -/
theorem not_marked_of_isClear (h : Flags.isClear s.seen = true) (v : Var) : ¬s.Marked v := by
  intro yes
  have inside := Array.mem_of_getElem? (DenseMap.get_eq_ok.mp yes)
  have clear := Array.all_eq_true_iff_forall_mem.mp h true inside
  cases clear

/-- Marking a variable marks no other. -/
theorem mark_eq_ok {v : Var} (h : s.mark v = .ok s') :
    s.Kin s' ∧ ∀ u, s'.Marked u ↔ u = v ∨ s.Marked u := by
  obtain ⟨seen, written, h⟩ := bind_eq_ok.mp h
  cases h
  refine ⟨kin_of_eq rfl rfl rfl rfl, fun u => ?_⟩
  unfold Marked
  change seen.get u = _ ↔ _
  rw [DenseMap.get_set written]
  split
  next same => simp [same]
  next other => simp [other]

/-- Taking a mark away takes no other. -/
theorem unmark_eq_ok {v : Var} (h : s.unmark v = .ok s') :
    s.Kin s' ∧ ∀ u, s'.Marked u ↔ u ≠ v ∧ s.Marked u := by
  obtain ⟨seen, written, h⟩ := bind_eq_ok.mp h
  cases h
  refine ⟨kin_of_eq rfl rfl rfl rfl, fun u => ?_⟩
  unfold Marked
  change seen.get u = _ ↔ _
  rw [DenseMap.get_set written]
  split
  next same => simp [same]
  next other => simp [other]

theorem bump_eq_ok {v : Var} (h : s.updateOrder (·.bump v) = .ok s') :
    s.Kin s' ∧ ∀ u, s'.Marked u ↔ s.Marked u := by
  obtain ⟨order, bumped, rfl⟩ := updateOrder_eq_ok.mp h
  exact ⟨⟨.refl _, fun c => Order.covers_bump c bumped, rfl, rfl⟩, fun _ => .rfl⟩

/-- The literals are false, and the clause of them follows from the formula. -/
def Derives (g : Regime) (t : Trail) (c : List Lit) : Prop :=
  g.sound → (∀ l ∈ c, -l ∈ t.lits) ∧ Entails g.formula c

/-- Literals that are false in every model can be left out of what is derived. -/
theorem Derives.drop {c d : List Lit} (h : Derives g t c) (sub : ∀ l ∈ d, l ∈ c)
    (rest : g.sound → ∀ l ∈ c, l ∈ d ∨ Entails g.formula [-l]) : Derives g t d := fun on =>
  ⟨fun l hl => (h on).1 l (sub l hl), (h on).2.drop (rest on)⟩

theorem Derives.congr {c d : List Lit} (h : Derives g t c) (same : ∀ l, l ∈ d ↔ l ∈ c) :
    Derives g t d :=
  h.drop (fun l => (same l).mp) fun _ l hl => .inl ((same l).mpr hl)

/-- Resolution: a literal gives way to the premises of its negation. -/
theorem Derives.resolve {p : Lit} {c ps : List Lit} (h : Derives g t (-p :: c))
    (reason : g.sound → (∀ q ∈ ps, -q ∈ t.lits) ∧ Entails g.formula (p :: ps)) :
    Derives g t (c ++ ps) := by
  intro on
  obtain ⟨false_, entailed⟩ := h on
  obtain ⟨false', entailed'⟩ := reason on
  refine ⟨fun l hl => ?_, fun σ model => ?_⟩
  · rcases List.mem_append.mp hl with hl | hl
    · exact false_ l (List.mem_cons_of_mem _ hl)
    · exact false' l hl
  · obtain ⟨l, hl, holds⟩ := entailed σ model
    obtain ⟨m, hm, holds'⟩ := entailed' σ model
    rcases List.mem_cons.mp hl with rfl | hl
    · rcases List.mem_cons.mp hm with rfl | hm
      · exact absurd holds' (Lit.holds_neg.mp holds)
      · exact ⟨m, List.mem_append_right c hm, holds'⟩
    · exact ⟨l, List.mem_append_left ps hl, holds⟩

/-- What holds of a resolvent: `here` are its literals of the conflict level. -/
structure Gathered (s : Solver) (r : Resolvent) (here : List Lit) (bound : Nat) : Prop where
  count : here.length = r.pending
  once : ((here ++ r.others.toList).map Lit.var).Nodup
  marked : ∀ v, s.Marked v ↔ ∃ l ∈ here ++ r.others.toList, l.var = v
  level : ∀ l ∈ here, s.net.trail.levelOf l.var = .ok r.level ∧ 0 < r.level
  lower : ∀ l ∈ r.others.toList,
    ∃ k, s.net.trail.levelOf l.var = .ok k ∧ 0 < k ∧ k < r.level
  placed : ∀ l ∈ here ++ r.others.toList, Placed s.net.trail bound l

/-- Bookkeeping that keeps the marks keeps the resolvent. -/
theorem Gathered.kin (h : Gathered s r here bound) (k : s.Kin s')
    (marks : ∀ v, s'.Marked v ↔ s.Marked v) : Gathered s' r here bound where
  count := h.count
  once := h.once
  marked v := (marks v).trans (h.marked v)
  level := by
    rw [k.net.trail]
    exact h.level
  lower := by
    rw [k.net.trail]
    exact h.lower
  placed := by
    rw [k.net.trail]
    exact h.placed

/-- A new literal that has been marked joins the resolvent. -/
theorem Gathered.insert {q : Lit} {here' : List Lit} {r' : Resolvent}
    (h : Gathered s r here bound) (k : s.Kin s')
    (marks : ∀ u, s'.Marked u ↔ u = q.var ∨ s.Marked u) (new : ¬s.Marked q.var)
    (placed : Placed s.net.trail bound q)
    (perm : (here' ++ r'.others.toList).Perm (q :: (here ++ r.others.toList)))
    (count : here'.length = r'.pending)
    (level : ∀ l ∈ here', s.net.trail.levelOf l.var = .ok r'.level ∧ 0 < r'.level)
    (lower : ∀ l ∈ r'.others.toList,
      ∃ k, s.net.trail.levelOf l.var = .ok k ∧ 0 < k ∧ k < r'.level) :
    Gathered s' r' here' bound where
  count := count
  once := by
    refine ((perm.map Lit.var).nodup_iff).mpr ?_
    rw [List.map_cons, List.nodup_cons]
    refine ⟨fun inside => ?_, h.once⟩
    obtain ⟨l, hl, same⟩ := List.mem_map.mp inside
    exact new ((h.marked _).mpr ⟨l, hl, same⟩)
  marked v := by
    rw [marks, h.marked]
    constructor
    · intro given
      rcases given with rfl | ⟨l, hl, same⟩
      · exact ⟨q, perm.mem_iff.mpr List.mem_cons_self, rfl⟩
      · exact ⟨l, perm.mem_iff.mpr (List.mem_cons_of_mem _ hl), same⟩
    · intro given
      rcases given with ⟨l, hl, same⟩
      rcases List.mem_cons.mp (perm.mem_iff.mp hl) with rfl | hl
      · exact .inl same.symm
      · exact .inr ⟨l, hl, same⟩
  level := by
    rw [k.net.trail]
    exact level
  lower := by
    rw [k.net.trail]
    exact lower
  placed l hl := by
    rw [k.net.trail]
    rcases List.mem_cons.mp (perm.mem_iff.mp hl) with rfl | hl
    · exact placed
    · exact h.placed l hl

/-- A new literal of the conflict level. -/
theorem Gathered.insertHere {q : Lit} (h : Gathered s r here bound) (k : s.Kin s')
    (marks : ∀ u, s'.Marked u ↔ u = q.var ∨ s.Marked u) (new : ¬s.Marked q.var)
    (placed : Placed s.net.trail bound q) (level : s.net.trail.levelOf q.var = .ok r.level)
    (positive : 0 < r.level) :
    Gathered s' { r with pending := r.pending + 1 } (q :: here) bound := by
  refine h.insert k marks new placed (.refl _) ?_ ?_ h.lower
  · rw [List.length_cons, h.count]
  · intro l hl
    rcases List.mem_cons.mp hl with rfl | hl
    · exact ⟨level, positive⟩
    · exact h.level l hl

/-- A new literal of a lower level. -/
theorem Gathered.insertLower {q : Lit} {j : Nat} (h : Gathered s r here bound) (k : s.Kin s')
    (marks : ∀ u, s'.Marked u ↔ u = q.var ∨ s.Marked u) (new : ¬s.Marked q.var)
    (placed : Placed s.net.trail bound q) (level : s.net.trail.levelOf q.var = .ok j)
    (positive : 0 < j) (low : j < r.level) :
    Gathered s' { r with others := r.others.push q } here bound := by
  refine h.insert k marks new placed ?_ h.count h.level ?_
  · rw [Array.toList_push, ← List.append_assoc]
    exact List.perm_append_singleton q _
  · intro l hl
    rw [Array.toList_push, List.mem_append, List.mem_singleton] at hl
    rcases hl with hl | rfl
    · exact h.lower l hl
    · exact ⟨j, level, positive, low⟩

/-- A false literal that is marked, or that is false at the root level, is left out. -/
theorem Gathered.leaveOut {q : Lit} {qs : List Lit} {j : Nat} (b : Footing g s)
    (h : Gathered s r here bound) (level : s.net.trail.levelOf q.var = .ok j)
    (old : s.Marked q.var ∨ j = 0)
    (derives : Derives g s.net.trail (here ++ r.others.toList ++ q :: qs)) :
    Derives g s.net.trail (here ++ r.others.toList ++ qs) := by
  refine derives.drop ?_ ?_
  · intro l hl
    simp only [List.mem_append, List.mem_cons] at hl ⊢
    tauto
  intro on l hl
  by_cases same : l = q
  · subst same
    obtain ⟨false_, -⟩ := derives on
    have falseHere : -l ∈ s.net.trail.lits := false_ l (by simp)
    rcases old with marked | root
    · -- the mark belongs to a literal that is false too, so to this one
      obtain ⟨m, hm, var⟩ := (h.marked l.var).mp marked
      have falseMarked : -m ∈ s.net.trail.lits := false_ m (List.mem_append_left _ hm)
      have same : -m = -l := b.trail.eq_of_var falseMarked falseHere var
      rw [Lit.neg_inj] at same
      exact .inl (List.mem_append_left qs (same ▸ hm))
    · subst root
      have fact := (b.trail.mem_upTo_iff falseHere level).mpr (Nat.le_refl 0)
      exact .inr (b.root on fact)
  · refine .inl ?_
    simp only [List.mem_append, List.mem_cons] at hl ⊢
    tauto

/-- Taking the literals of a clause in. -/
theorem absorb_gathered {qs : List Lit} (b : Footing g s) (h : s.absorb r qs = .ok (s', r'))
    (gathered : Gathered s r here bound) (placed : ∀ q ∈ qs, Placed s.net.trail bound q)
    (derives : Derives g s.net.trail (here ++ r.others.toList ++ qs)) :
    ∃ here', s.Kin s' ∧ Gathered s' r' here' bound ∧
      Derives g s'.net.trail (here' ++ r'.others.toList) := by
  induction qs generalizing s r here with
  | nil =>
      cases h
      rw [List.append_nil] at derives
      exact ⟨here, .refl _, gathered, derives⟩
  | cons q qs ih =>
      obtain ⟨level, levelOf, h⟩ := bind_eq_ok.mp h
      obtain ⟨_, below, h⟩ := bind_eq_ok.mp h
      obtain ⟨seen, read, h⟩ := bind_eq_ok.mp h
      have below : level ≤ r.level := by simpa using ensure_eq_ok.mp below
      have placed' : ∀ q ∈ qs, Placed s.net.trail bound q := fun q hq =>
        placed q (List.mem_cons_of_mem _ hq)
      split at h
      next new =>
        obtain ⟨s₁, bumped, h⟩ := bind_eq_ok.mp h
        obtain ⟨s₂, marked, h⟩ := bind_eq_ok.mp h
        obtain ⟨k₁, marks₁⟩ := bump_eq_ok bumped
        obtain ⟨k₂, marks₂⟩ := mark_eq_ok marked
        have k := k₁.trans k₂
        have marks : ∀ u, s₂.Marked u ↔ u = q.var ∨ s.Marked u := fun u => by
          rw [marks₂, marks₁]
        simp only [Bool.and_eq_true, Bool.not_eq_true', decide_eq_true_eq] at new
        obtain ⟨unseen, positive⟩ := new
        subst unseen
        have unmarked := not_marked read
        have placedHere := placed q List.mem_cons_self
        rw [← k.net.trail] at placed' derives
        split at h
        next same =>
          have gathered₂ := gathered.insertHere k marks unmarked placedHere (same ▸ levelOf)
            (same ▸ positive)
          have derives₂ : Derives g s₂.net.trail (q :: here ++ r.others.toList ++ qs) := by
            refine derives.congr fun l => ?_
            simp only [List.mem_append, List.mem_cons]
            tauto
          obtain ⟨here', k', rest⟩ := ih (k.footing b) h gathered₂ placed' derives₂
          exact ⟨here', k.trans k', rest⟩
        next other =>
          have low : level < r.level := Nat.lt_of_le_of_ne below other
          have gathered₂ :=
            gathered.insertLower k marks unmarked placedHere levelOf positive low
          have derives₂ : Derives g s₂.net.trail
              (here ++ (r.others.push q).toList ++ qs) := by
            refine derives.congr fun l => ?_
            simp only [Array.toList_push, List.mem_append, List.mem_cons, List.not_mem_nil,
              or_false]
            tauto
          obtain ⟨here', k', rest⟩ := ih (k.footing b) h gathered₂ placed' derives₂
          exact ⟨here', k.trans k', rest⟩
      next old =>
        simp only [Bool.and_eq_true, Bool.not_eq_true', decide_eq_true_eq, not_and,
          Nat.not_lt, Nat.le_zero] at old
        have known : s.Marked q.var ∨ level = 0 := by
          cases seen with
          | true => exact .inl read
          | false => exact .inr (old rfl)
        have derives' := gathered.leaveOut b levelOf known derives
        exact ih b h gathered placed' derives'

/-! ## Going on at another level -/

/-- No literal is of a level above the greatest one. -/
theorem greatestLevel_spec {ls : List Lit} {k : Nat} (h : greatestLevel t ls = .ok k) :
    ∀ l ∈ ls, ∃ j, t.levelOf l.var = .ok j ∧ j ≤ k := by
  induction ls generalizing k with
  | nil => exact fun l hl => absurd hl List.not_mem_nil
  | cons a ls ih =>
      obtain ⟨j, levelOf, h⟩ := bind_eq_ok.mp h
      obtain ⟨m, rest, h⟩ := bind_eq_ok.mp h
      cases h
      intro l hl
      rcases List.mem_cons.mp hl with rfl | hl
      · exact ⟨j, levelOf, Nat.le_max_left j m⟩
      · obtain ⟨i, levelOf', le⟩ := ih rest l hl
        exact ⟨i, levelOf', Nat.le_trans le (Nat.le_max_right j m)⟩

/-- The literals are split by their level, and none is lost. -/
theorem splitLevel_spec {ls others : List Lit} {k n : Nat}
    (h : splitLevel t k ls = .ok (n, others)) : ∃ here : List Lit, here.length = n ∧
      (here ++ others).Perm ls ∧ (∀ l ∈ here, t.levelOf l.var = .ok k) ∧
      ∀ l ∈ others, t.levelOf l.var ≠ .ok k := by
  induction ls generalizing n others with
  | nil =>
      cases h
      exact ⟨[], rfl, .refl _, by simp, by simp⟩
  | cons a ls ih =>
      obtain ⟨⟨n₁, others₁⟩, rest, h⟩ := bind_eq_ok.mp h
      obtain ⟨here, length, perm, same, other⟩ := ih rest
      obtain ⟨j, levelOf, h⟩ := bind_eq_ok.mp h
      split at h
      next e =>
        cases h
        refine ⟨a :: here, by simp [length], perm.cons a, fun l hl => ?_, other⟩
        rcases List.mem_cons.mp hl with rfl | hl
        · exact e ▸ levelOf
        · exact same l hl
      next ne =>
        cases h
        refine ⟨here, length, List.perm_middle.trans (perm.cons a), same, fun l hl => ?_⟩
        rcases List.mem_cons.mp hl with rfl | hl
        · rw [levelOf]
          simpa using ne
        · exact other l hl

/-- What the search for the next level comes to: the walk goes on with the same literals,
or the conflict follows from the root level. -/
def Goes (g : Regime) (s : Solver) (bound : Nat) : Option Resolvent → Prop
  | some r => ∃ here, Gathered s r here bound ∧
      Derives g s.net.trail (here ++ r.others.toList)
  | none => g.sound → Unsatisfiable g.formula

/-- The search for the next level loses no literal, and derives nothing new. -/
theorem settle_gathered {result : Option Resolvent} (h : s.settle r = .ok (s', result))
    (gathered : Gathered s r here bound)
    (derives : Derives g s.net.trail (here ++ r.others.toList)) :
    s.Kin s' ∧ Goes g s' bound result := by
  unfold settle at h
  split at h
  next =>
    cases h
    exact ⟨.refl _, here, gathered, derives⟩
  next done =>
    have none : here = [] := by
      apply List.eq_nil_of_length_eq_zero
      rw [gathered.count]
      simpa using done
    subst none
    obtain ⟨level, greatest, h⟩ := bind_eq_ok.mp h
    have below := greatestLevel_spec greatest
    split at h
    next zero =>
      obtain ⟨_, -, h⟩ := bind_eq_ok.mp h
      cases h
      refine ⟨kin_log rfl _, fun on => ?_⟩
      have empty : r.others.toList = [] := by
        apply List.eq_nil_iff_forall_not_mem.mpr
        intro l hl
        obtain ⟨j, levelOf, le⟩ := below l hl
        obtain ⟨k, levelOf', positive, -⟩ := gathered.lower l hl
        cases levelOf.symm.trans levelOf'
        omega
      obtain ⟨-, entailed⟩ := derives on
      rw [empty] at entailed
      exact unsatisfiable_iff_entails_nil.mpr entailed
    next positive =>
      obtain ⟨⟨n, others⟩, split_, h⟩ := bind_eq_ok.mp h
      cases h
      obtain ⟨here', length, perm, same, other⟩ := splitLevel_spec split_
      refine ⟨kin_log rfl _, here', ?_, ?_⟩
      · refine ⟨length, ?_, fun v => ?_, fun l hl => ?_, fun l hl => ?_, fun l hl => ?_⟩
        · exact ((perm.map Lit.var).nodup_iff).mpr gathered.once
        · refine (gathered.marked v).trans (exists_congr fun l => and_congr_left fun _ => ?_)
          exact perm.mem_iff.symm
        · exact ⟨same l hl, Nat.pos_of_ne_zero positive⟩
        · have inside := perm.mem_iff.mp (List.mem_append_right here' hl)
          obtain ⟨j, levelOf, le⟩ := below l inside
          obtain ⟨k, levelOf', low, -⟩ := gathered.lower l inside
          cases levelOf.symm.trans levelOf'
          refine ⟨j, levelOf, low, Nat.lt_of_le_of_ne le ?_⟩
          intro same
          subst same
          exact other l hl levelOf
        · exact gathered.placed l (perm.mem_iff.mp hl)
      · exact derives.congr fun l => perm.mem_iff

/-! ## The walk -/

/-- Above the root, a literal that is no decision has its premises before it. -/
theorem Footing.reason {p : Lit} {i k : Nat} {why : Reason} (b : Footing g s)
    (there : s.net.trail.lits[i]? = some p) (levelOf : s.net.trail.levelOf p.var = .ok k)
    (positive : 0 < k) (reasonOf : s.net.trail.reasonOf p.var = .ok why)
    (ne : why ≠ .decision) : ∃ ps, s.net.Assigned i p why ∧ s.net.Behind p ps why ∧
      (∀ q ∈ ps, Placed s.net.trail i q) ∧
      (g.sound → (∀ q ∈ ps, -q ∈ s.net.trail.lits) ∧ Entails g.formula (p :: ps)) := by
  have above : s.net.trail.cut 0 ≤ i := by
    have root := b.trail.lt_cut_iff (k := 0) there levelOf
    omega
  have at_ : s.net.Assigned i p why := ⟨there, above, reasonOf⟩
  obtain ⟨ps, behind, before⟩ := b.reasons at_ ne
  exact ⟨ps, at_, behind, before, fun on => b.implied on at_ behind⟩

/-- Counting a use marks no variable. -/
theorem countUse_eq_ok {id : ClauseId} (h : s.countUse id = .ok s') :
    s.Kin s' ∧ ∀ v, s'.Marked v ↔ s.Marked v := by
  obtain ⟨c, -, h⟩ := bind_eq_ok.mp h
  split at h
  · obtain ⟨net, bumped, rfl⟩ := updateNet_eq_ok.mp h
    exact ⟨⟨Network.alike_bumpClause bumped, fun c => c, rfl, rfl⟩, fun _ => .rfl⟩
  · cases h
    exact ⟨.refl _, fun _ => .rfl⟩

/-- The literals that stand behind a reason are its premises. -/
theorem explain_eq_ok {p : Lit} {pending : Nat} {why : Reason} {ps lits : List Lit}
    (h : s.explain p pending why = .ok (s', lits)) (behind : s.net.Behind p ps why) :
    lits = ps ∧ s.Kin s' ∧ ∀ v, s'.Marked v ↔ s.Marked v := by
  cases why with
  | decision => cases h
  | binary a =>
      cases h
      exact ⟨behind.symm, .refl _, fun _ => .rfl⟩
  | ternary a c =>
      cases h
      exact ⟨behind.symm, .refl _, fun _ => .rfl⟩
  | clause id =>
      obtain ⟨s₁, counted, h⟩ := bind_eq_ok.mp h
      obtain ⟨c, read, h⟩ := bind_eq_ok.mp h
      obtain ⟨_, -, h⟩ := bind_eq_ok.mp h
      cases h
      obtain ⟨k, marks⟩ := countUse_eq_ok counted
      obtain ⟨d, stored, -, rfl⟩ := behind
      have here : s'.net.body? id = some c.body := Arena.body?_of_get read
      rw [k.net.body, stored] at here
      cases here
      exact ⟨rfl, k, marks⟩

/-- The literals of higher levels come last on the trail. -/
theorem level_le_of_lt {i j k m : Nat} {p q : Lit} (w : t.WF) (hp : t.lits[i]? = some p)
    (hq : t.lits[j]? = some q) (lt : j < i) (levelP : t.levelOf p.var = .ok k)
    (levelQ : t.levelOf q.var = .ok m) : m ≤ k := by
  have inside := (w.lt_cut_iff hp levelP).mpr (Nat.le_refl k)
  exact (w.lt_cut_iff hq levelQ).mp (Nat.lt_trans lt inside)

/-- A literal of another variable than the last one stands before it. -/
theorem Placed.pred {l p : Lit} {n : Nat} (h : Placed t (n + 1) l)
    (last : t.lits[n]? = some p) (other : l.var ≠ p.var) : Placed t n l := by
  obtain ⟨i, m, lt, there, same⟩ := h
  refine ⟨i, m, Nat.lt_of_le_of_ne (Nat.lt_succ_iff.mp lt) ?_, there, same⟩
  intro same
  subst same
  cases last.symm.trans there
  exact other same.symm

/-- A marked literal that comes last belongs to the conflict level, if any literal of
that level is left. -/
theorem Gathered.mem_here {p : Lit} {n : Nat} (w : s.net.trail.WF)
    (h : Gathered s r here (n + 1)) (last : s.net.trail.lits[n]? = some p)
    (marked : s.Marked p.var) (pending : r.pending ≠ 0) : ∃ l ∈ here, l.var = p.var := by
  obtain ⟨l, hl, same⟩ := (h.marked p.var).mp marked
  rcases List.mem_append.mp hl with inside | lower
  · exact ⟨l, inside, same⟩
  · -- otherwise a literal of a higher level stands before one of a lower level
    exfalso
    obtain ⟨x, hx⟩ : ∃ x, x ∈ here := by
      apply List.exists_mem_of_length_pos
      have := h.count
      omega
    have ne : x.var ≠ l.var := by
      have once := h.once
      rw [List.map_append, List.nodup_append] at once
      exact once.2.2 _ (List.mem_map_of_mem hx) _ (List.mem_map_of_mem lower)
    obtain ⟨k, levelL, -, low⟩ := h.lower l lower
    obtain ⟨levelX, -⟩ := h.level x hx
    have placed := h.placed x (List.mem_append_left _ hx)
    obtain ⟨i, m, lt, there, var⟩ := placed.pred last (same ▸ ne)
    rw [same] at levelL
    rw [← var] at levelX
    have le := level_le_of_lt w last there lt levelL levelX
    omega

/-- A literal of the conflict level is taken out of the resolvent, to be resolved. -/
theorem Gathered.remove {p l : Lit} {n k : Nat} (h : Gathered s r here (n + 1))
    (kin : s.Kin s') (marks : ∀ u, s'.Marked u ↔ u ≠ p.var ∧ s.Marked u)
    (last : s.net.trail.lits[n]? = some p) (hl : l ∈ here) (same : l.var = p.var)
    (counted : checkedSub r.pending 1 = .ok k) :
    Gathered s' { r with pending := k } (here.erase l) n := by
  have perm : here.Perm (l :: here.erase l) := List.perm_cons_erase hl
  have all : (here ++ r.others.toList).Perm (l :: (here.erase l ++ r.others.toList)) :=
    perm.append_right _
  have once := ((all.map Lit.var).nodup_iff).mp h.once
  rw [List.map_cons, List.nodup_cons] at once
  have away : ∀ m ∈ here.erase l ++ r.others.toList, m.var ≠ l.var := by
    intro m hm e
    exact once.1 (List.mem_map.mpr ⟨m, hm, e⟩)
  refine ⟨?_, once.2, fun v => ?_, fun m hm => ?_, ?_, fun m hm => ?_⟩
  · have length := perm.length_eq
    have count := h.count
    have sum := checkedSub_eq_ok.mp counted
    simp only [List.length_cons] at length
    change (here.erase l).length = k
    omega
  · rw [marks, h.marked]
    constructor
    · intro given
      rcases given with ⟨other, m, hm, rfl⟩
      rcases List.mem_cons.mp (all.mem_iff.mp hm) with rfl | hm
      · exact absurd same other
      · exact ⟨m, hm, rfl⟩
    · intro given
      rcases given with ⟨m, hm, rfl⟩
      exact ⟨same ▸ away m hm, m, all.mem_iff.mpr (List.mem_cons_of_mem _ hm), rfl⟩
  · rw [kin.net.trail]
    exact h.level m (List.mem_of_mem_erase hm)
  · rw [kin.net.trail]
    exact h.lower
  · rw [kin.net.trail]
    have placed := h.placed m (all.mem_iff.mpr (List.mem_cons_of_mem _ hm))
    exact placed.pred last (same ▸ away m hm)

/-- The clause that the walk ends with: `p` is the literal of the conflict level, and the
others are those of lower levels, which are the marked ones. -/
structure Resolved (g : Regime) (s : Solver) (p : Lit) (others : List Lit) : Prop where
  mem : p ∈ s.net.trail.lits
  once : ((p :: others).map Lit.var).Nodup
  marked : ∀ v, s.Marked v ↔ ∃ l ∈ others, l.var = v
  level : ∃ k, s.net.trail.levelOf p.var = .ok k ∧ 0 < k ∧ ∀ l ∈ others,
    ∃ j, s.net.trail.levelOf l.var = .ok j ∧ 0 < j ∧ j < k
  placed : ∀ l ∈ others, ∃ m ∈ s.net.trail.lits, m.var = l.var
  derives : Derives g s.net.trail (-p :: others)

/-- What the walk answers. -/
def Ends (g : Regime) (s : Solver) : Option (Lit × List Lit) → Prop
  | some (p, others) => Resolved g s p others
  | none => g.sound → Unsatisfiable g.formula

/-- The true literal `p`, of the conflict level, stands at place `n` of the trail, and its
negation has been taken out of the resolvent. -/
structure Exposed (g : Regime) (s : Solver) (p : Lit) (n : Nat) (r : Resolvent)
    (here : List Lit) : Prop where
  last : s.net.trail.lits[n]? = some p
  level : s.net.trail.levelOf p.var = .ok r.level
  positive : 0 < r.level
  gathered : Gathered s r here n
  away : ∀ m ∈ here ++ r.others.toList, m.var ≠ p.var
  derives : Derives g s.net.trail (-p :: (here ++ r.others.toList))

/-- The last literal of the resolvent is exposed when it is no longer marked. -/
theorem Gathered.expose {p : Lit} {n k : Nat} (b : Footing g s)
    (h : Gathered s r here (n + 1)) (derives : Derives g s.net.trail (here ++ r.others.toList))
    (last : s.net.trail.lits[n]? = some p) (marked : s.Marked p.var)
    (unmarked : s.unmark p.var = .ok s') (counted : checkedSub r.pending 1 = .ok k) :
    s.Kin s' ∧ ∃ rest, Exposed g s' p n { r with pending := k } rest := by
  obtain ⟨kin, marks⟩ := unmark_eq_ok unmarked
  have some_ : r.pending ≠ 0 := by
    have sum := checkedSub_eq_ok.mp counted
    omega
  obtain ⟨l, hl, same⟩ := h.mem_here b.trail last marked some_
  have rest := h.remove kin marks last hl same counted
  obtain ⟨level, positive⟩ := h.level l hl
  rw [same] at level
  have perm : here.Perm (l :: here.erase l) := List.perm_cons_erase hl
  have trail : s'.net.trail = s.net.trail := kin.net.trail
  refine ⟨kin, here.erase l, trail ▸ last, trail ▸ level, positive, rest, ?_, ?_⟩
  · intro m hm
    have still : s'.Marked m.var := (rest.marked m.var).mpr ⟨m, hm, rfl⟩
    exact ((marks m.var).mp still).1
  · rw [trail]
    intro on
    -- the literal is false, so it is the negation of `p`
    have false_ : -l ∈ s.net.trail.lits := (derives on).1 l (List.mem_append_left _ hl)
    have opposite : -l = p := b.trail.eq_of_var false_ (Array.mem_of_getElem? last) same
    have out : Derives g s.net.trail (l :: (here.erase l ++ r.others.toList)) :=
      derives.congr fun m => (perm.append_right _).mem_iff.symm
    rw [← opposite, Lit.neg_neg]
    exact out on

namespace Exposed

variable {p : Lit} {n : Nat}

/-- What is exposed stays so after bookkeeping. -/
theorem kin (o : Exposed g s p n r here) (k : s.Kin s') (marks : ∀ v, s'.Marked v ↔ s.Marked v) :
    Exposed g s' p n r here where
  last := by
    rw [k.net.trail]
    exact o.last
  level := by
    rw [k.net.trail]
    exact o.level
  positive := o.positive
  gathered := o.gathered.kin k marks
  away := o.away
  derives := by
    rw [k.net.trail]
    exact o.derives

/-- The walk ends when nothing else is left of the conflict level. -/
theorem resolved (o : Exposed g s p n r []) : Resolved g s p r.others.toList where
  mem := Array.mem_of_getElem? o.last
  once := by
    rw [List.map_cons, List.nodup_cons]
    refine ⟨fun inside => ?_, o.gathered.once⟩
    obtain ⟨m, hm, e⟩ := List.mem_map.mp inside
    exact o.away m hm e
  marked := o.gathered.marked
  level := ⟨r.level, o.level, o.positive, o.gathered.lower⟩
  placed m hm := by
    obtain ⟨i, x, -, there, e⟩ := o.gathered.placed m hm
    exact ⟨x, Array.mem_of_getElem? there, e⟩
  derives := o.derives

/-- The reason of `p` is taken in. -/
theorem absorb {pending : Nat} {why : Reason} {lits : List Lit} {s₁ s₂ : Solver}
    (o : Exposed g s p n r here) (b : Footing g s)
    (reasonOf : s.net.trail.reasonOf p.var = .ok why)
    (explained : s.explain p pending why = .ok (s₁, lits))
    (absorbed : s₁.absorb r lits = .ok (s₂, r')) :
    s.Kin s₂ ∧ ∃ here', Gathered s₂ r' here' n ∧
      Derives g s₂.net.trail (here' ++ r'.others.toList) := by
  have ne : why ≠ .decision := by
    intro same
    subst same
    cases explained
  obtain ⟨ps, -, behind, placed, entailed⟩ := b.reason o.last o.level o.positive reasonOf ne
  obtain ⟨rfl, k₁, marks⟩ := explain_eq_ok explained behind
  have resolvent : Derives g s₁.net.trail (here ++ r.others.toList ++ lits) := by
    rw [k₁.net.trail]
    exact o.derives.resolve entailed
  rw [← k₁.net.trail] at placed
  obtain ⟨here', k₂, gathered, derives⟩ :=
    absorb_gathered (k₁.footing b) absorbed (o.gathered.kin k₁ marks) placed resolvent
  exact ⟨k₁.trans k₂, here', gathered, derives⟩

/-- The walk goes on below `p` when `p` has been resolved with its reason. -/
theorem resolve {pending : Nat} {why : Reason} {lits : List Lit} {s₁ s₂ s₃ : Solver}
    {next_ : Option Resolvent} (o : Exposed g s p n r here) (b : Footing g s)
    (reasonOf : s.net.trail.reasonOf p.var = .ok why)
    (explained : s.explain p pending why = .ok (s₁, lits))
    (absorbed : s₁.absorb r lits = .ok (s₂, r')) (settled : s₂.settle r' = .ok (s₃, next_)) :
    s.Kin s₃ ∧ Goes g s₃ n next_ := by
  obtain ⟨k, here', gathered, derives⟩ := o.absorb b reasonOf explained absorbed
  obtain ⟨k₃, goes⟩ := settle_gathered settled gathered derives
  exact ⟨k.trans k₃, goes⟩

end Exposed

/-- A literal that is not marked is passed over. -/
theorem Gathered.pass {p : Lit} {n : Nat} (h : Gathered s r here (n + 1))
    (last : s.net.trail.lits[n]? = some p) (unmarked : ¬s.Marked p.var) :
    Gathered s r here n := by
  refine { h with placed := fun l hl => ?_ }
  apply (h.placed l hl).pred last
  intro same
  exact unmarked ((h.marked _).mpr ⟨l, hl, same⟩)

theorem reverse_take_succ {n : Nat} {p : Lit} (last : t.lits[n]? = some p) :
    (t.lits.toList.take (n + 1)).reverse = p :: (t.lits.toList.take n).reverse := by
  rw [List.take_add_one, Array.getElem?_toList, last]
  simp

/-- The marked literal `p` is resolved away, although it may be the only one left, and the
level is found at which the walk goes on. -/
inductive Turn (s : Solver) (r : Resolvent) (p : Lit) (s' : Solver) (next : Option Resolvent) :
    Prop
  | mk {why : Reason} {reliable : Bool} {s₁ s₂ s₃ : Solver} {pending : Nat} {lits : List Lit}
      {r' : Resolvent} : s.net.trail.reasonOf p.var = .ok why → s.unmark p.var = .ok s₁ →
      checkedSub r.pending 1 = .ok pending → s₁.isReliable p.var = .ok reliable →
      (pending = 0 → reliable = false ∧ why ≠ .decision) →
      (if pending = 0 then s₁.log (.skipUnreliable p) else s₁).explain p pending why =
        .ok (s₂, lits) →
      s₂.absorb { r with pending } lits = .ok (s₃, r') → s₃.settle r' = .ok (s', next) →
      Turn s r p s' next

/-- The walk along the literals, which answers with `result`. -/
inductive Walked : Solver → Resolvent → List Lit → Solver → Option (Lit × List Lit) → Prop
  | pass {s s' : Solver} {r : Resolvent} {p : Lit} {below : List Lit}
      {result : Option (Lit × List Lit)} : s.seen.get p.var = .ok false →
      Walked s r below s' result → Walked s r (p :: below) s' result
  | stop {s s' : Solver} {r : Resolvent} {p : Lit} {below : List Lit} {why : Reason}
      {reliable : Bool} : s.Marked p.var → s.net.trail.reasonOf p.var = .ok why →
      s.unmark p.var = .ok s' → checkedSub r.pending 1 = .ok 0 →
      s'.isReliable p.var = .ok reliable → reliable = true ∨ why = .decision →
      Walked s r (p :: below) s' (some (p, r.others.toList))
  | root {s s' : Solver} {r : Resolvent} {p : Lit} {below : List Lit} : s.Marked p.var →
      Turn s r p s' none → Walked s r (p :: below) s' none
  | on {s s₁ s' : Solver} {r r₁ : Resolvent} {p : Lit} {below : List Lit}
      {result : Option (Lit × List Lit)} : s.Marked p.var → Turn s r p s₁ (some r₁) →
      Walked s₁ r₁ below s' result → Walked s r (p :: below) s' result

/-- A walk that succeeds is one of the ways to walk, by induction along the literals. -/
theorem walked_of_ok {ps : List Lit} {result : Option (Lit × List Lit)}
    (h : s.walk r ps = .ok (s', result)) : Walked s r ps s' result := by
  induction ps generalizing s r with
  | nil => cases h
  | cons p below ih =>
      obtain ⟨seen, read, h⟩ := bind_eq_ok.mp h
      cases seen with
      | false => exact .pass read (ih h)
      | true =>
          rw [if_pos rfl] at h
          obtain ⟨why, origin, h⟩ := bind_eq_ok.mp h
          obtain ⟨s₁, unmarked, h⟩ := bind_eq_ok.mp h
          obtain ⟨pending, counted, h⟩ := bind_eq_ok.mp h
          obtain ⟨reliable, tested, h⟩ := bind_eq_ok.mp h
          simp only at h
          split at h
          next stop =>
            simp only [Bool.and_eq_true, decide_eq_true_eq, Bool.not_eq_true',
              Bool.and_eq_false_iff, Bool.not_eq_false', decide_eq_false_iff_not, not_not] at stop
            cases h
            exact .stop read origin unmarked (stop.1 ▸ counted) tested stop.2
          next more =>
            obtain ⟨⟨s₂, lits⟩, explained, h⟩ := bind_eq_ok.mp h
            obtain ⟨⟨s₃, r₃⟩, absorbed, h⟩ := bind_eq_ok.mp h
            obtain ⟨⟨s₄, next_⟩, settled, h⟩ := bind_eq_ok.mp h
            have unfit : pending = 0 → reliable = false ∧ why ≠ .decision := by
              rintro rfl
              simpa using more
            have turn : Turn s r p s₄ next_ :=
              .mk origin unmarked counted tested unfit explained absorbed settled
            cases next_ with
            | none =>
                cases h
                exact .root read turn
            | some r₄ => exact .on read turn (ih h)

/-- The last literal is resolved away. -/
theorem Turn.goes {p : Lit} {n : Nat} {next_ : Option Resolvent} (turn : Turn s r p s' next_)
    (b : Footing g s) (gathered : Gathered s r here (n + 1))
    (derives : Derives g s.net.trail (here ++ r.others.toList))
    (last : s.net.trail.lits[n]? = some p) (marked : s.Marked p.var) :
    s.Kin s' ∧ Goes g s' n next_ := by
  obtain @⟨why, _, s₁, _, _, pending, _, _, origin, unmarked, counted, -, -, explained, absorbed,
    settled⟩ := turn
  obtain ⟨k₁, rest, exposed⟩ := gathered.expose b derives last marked unmarked counted
  generalize e₂ : (if pending = 0 then s₁.log (.skipUnreliable p) else s₁) = s₂ at explained
  have skipped : s₁.Kin s₂ ∧ ∀ v, s₂.Marked v ↔ s₁.Marked v := by
    subst e₂
    split
    · exact ⟨kin_log rfl _, fun _ => .rfl⟩
    · exact ⟨.refl _, fun _ => .rfl⟩
  obtain ⟨k₂, marks₂⟩ := skipped
  have k := k₁.trans k₂
  have originHere : s₂.net.trail.reasonOf p.var = .ok why := by
    rw [k.net.trail]
    exact origin
  obtain ⟨k₃, goes⟩ :=
    (exposed.kin k₂ marks₂).resolve (k.footing b) originHere explained absorbed settled
  exact ⟨k.trans k₃, goes⟩

/-- By induction along the walk, the resolvent stays derived, and its literals stand before the
ones passed. -/
theorem Walked.ends {n : Nat} {result : Option (Lit × List Lit)} (b : Footing g s)
    (bound : n ≤ s.net.trail.lits.size)
    (h : Walked s r (s.net.trail.lits.toList.take n).reverse s' result)
    (gathered : Gathered s r here n)
    (derives : Derives g s.net.trail (here ++ r.others.toList)) :
    s.Kin s' ∧ Ends g s' result := by
  induction n generalizing s r here with
  | zero => cases h
  | succ n ih =>
      have inside : n < s.net.trail.lits.size := bound
      obtain ⟨p, last⟩ : ∃ p, s.net.trail.lits[n]? = some p :=
        ⟨_, Array.getElem?_eq_getElem inside⟩
      rw [reverse_take_succ last] at h
      cases h with
      | pass read h =>
          exact ih b (Nat.le_of_lt inside) h (gathered.pass last (not_marked read)) derives
      | stop marked _ unmarked counted _ _ =>
          obtain ⟨k, rest, exposed⟩ := gathered.expose b derives last marked unmarked counted
          have none : rest = [] := List.eq_nil_of_length_eq_zero exposed.gathered.count
          subst none
          exact ⟨k, exposed.resolved⟩
      | root marked turn => exact turn.goes b gathered derives last marked
      | on marked turn h =>
          obtain ⟨k, here₁, gathered₁, derives₁⟩ := turn.goes b gathered derives last marked
          rw [← k.net.trail] at h inside
          obtain ⟨k₁, ends⟩ := ih (k.footing b) (Nat.le_of_lt inside) h gathered₁ derives₁
          exact ⟨k.trans k₁, ends⟩

/-- The analysis begins with a clause that is false, when nothing is marked. -/
theorem gathered_start {c : Clause} (false_ : ∀ l ∈ c.lits, -l ∈ s.net.trail.lits)
    (entailed : g.sound → Entails g.formula c.lits) (clear : ∀ v, ¬s.Marked v) :
    Gathered s { others := #[], pending := 0, level := s.level } [] s.net.trail.lits.size ∧
      (∀ q ∈ c.lits, Placed s.net.trail s.net.trail.lits.size q) ∧
      Derives g s.net.trail ([] ++ (#[] : Array Lit).toList ++ c.lits) := by
  refine ⟨⟨rfl, List.nodup_nil, fun v => ?_, by simp, by simp, by simp⟩, fun q hq => ?_,
    fun on => ⟨false_, entailed on⟩⟩
  · simp [clear v]
  · obtain ⟨i, there⟩ := Array.mem_iff_getElem?.mp (false_ q hq)
    exact ⟨i, -q, (Array.getElem?_eq_some_iff.mp there).1, there, rfl⟩

theorem take_size (t : Trail) : t.lits.toList.take t.lits.size = t.lits.toList := by
  rw [← Array.length_toList, List.take_length]

/-- A false clause is resolved up to one literal of the conflict level, unless the
conflict follows from the root level. -/
theorem resolve_resolved {id : ClauseId} {result : Option (Lit × List Lit)}
    (b : Footing g s) (rejects : Rejects g s id)
    (clear : Flags.isClear s.seen = true) (h : s.resolve id = .ok (s', result)) :
    s.Kin s' ∧ Ends g s' result := by
  obtain ⟨s₁, counted, h⟩ := bind_eq_ok.mp h
  obtain ⟨c, read, h⟩ := bind_eq_ok.mp h
  obtain ⟨⟨s₂, r₂⟩, absorbed, h⟩ := bind_eq_ok.mp h
  obtain ⟨⟨s₃, next_⟩, settled, h⟩ := bind_eq_ok.mp h
  obtain ⟨k₁, marks⟩ := countUse_eq_ok counted
  have b₁ := k₁.footing b
  obtain ⟨d, stored, false_, entailed⟩ := rejects
  have here : s₁.net.body? id = some c.body := Arena.body?_of_get read
  have same := here
  rw [k₁.net.body, stored] at same
  cases same
  have falseHere : ∀ l ∈ c.body.lits, -l ∈ s₁.net.trail.lits := by
    rw [k₁.net.trail]
    exact false_
  obtain ⟨none, placed, derives⟩ := gathered_start falseHere entailed fun v => by
    rw [marks]
    exact not_marked_of_isClear clear v
  obtain ⟨here₂, k₂, gathered₂, derives₂⟩ := absorb_gathered b₁ absorbed none placed derives
  obtain ⟨k₃, goes⟩ := settle_gathered settled gathered₂ derives₂
  have k := (k₁.trans k₂).trans k₃
  cases next_ with
  | none =>
      cases h
      exact ⟨k, goes⟩
  | some r₃ =>
      obtain ⟨here₃, gathered₃, derives₃⟩ := goes
      have size : s₃.net.trail.lits.size = s₁.net.trail.lits.size := by
        rw [(k₂.trans k₃).net.trail]
      rw [← size] at gathered₃
      simp only at h
      rw [← take_size] at h
      obtain ⟨k₄, ends⟩ :=
        (walked_of_ok h).ends (k.footing b) (Nat.le_refl _) gathered₃ derives₃
      exact ⟨k.trans k₄, ends⟩

end Cdcl.Solver
