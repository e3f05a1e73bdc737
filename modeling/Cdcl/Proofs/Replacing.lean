import Cdcl.Proofs.Marks
import Mathlib.Data.List.Perm.Basic

/-!
# Replacing literals that may not be learnt

Behind the asserting literal, implied literals of unreliable variables give way to their
premises, one after another.

A variable stays marked when its literal goes, so the clause no longer is a resolvent of
stored clauses in an order that can be read off.  `Covered` is what holds instead: each
marked literal is in the clause, or all its premises are marked or facts.  `Covered.entails`
concludes from this, by induction along the trail, that the shorter clause follows.

* `absorbPremises_spec` — what taking premises in does;
* `replaceUnreliable_rule` — the rule of the loop: what passing a literal and replacing one
  keep holds at its end;
* `replaceUnreliable_replacing` — what is left is a false clause that is covered;
* `replaceUnreliable_admissible` — and it may be learnt.
-/

namespace Cdcl.Solver

open Network (Regime)

variable {g : Regime} {s s' : Solver} {p : Lit} {k : Nat} {raw others : List Lit}
  {lits lits' marked marked' : Array Lit}

/-- The variable was assigned because of literals that are marked or facts. -/
def Explained (s : Solver) (v : Var) : Prop :=
  ∃ i m why ps, s.net.Assigned i m why ∧ m.var = v ∧ s.net.Behind m ps why ∧
    ∀ q ∈ ps, s.Marked q.var ∨ s.net.trail.levelOf q.var = .ok 0

/-- Bookkeeping keeps what explains a variable, as long as no mark is taken away. -/
theorem Explained.kin {v : Var} (h : s.Explained v) (k : s.Kin s')
    (marks : ∀ u, s.Marked u → s'.Marked u) : s'.Explained v := by
  obtain ⟨i, m, why, ps, at_, var, behind, covered⟩ := h
  refine ⟨i, m, why, ps, k.net.assigned.mpr at_, var, k.net.behind.mpr behind, ?_⟩
  intro q hq
  rw [k.net.trail]
  exact (covered q hq).imp_left (marks _)

/-- Every marked variable is one of the literals, or was assigned because of marked
literals and facts. -/
def Covered (s : Solver) (others : List Lit) : Prop :=
  ∀ v, s.Marked v → (∃ l ∈ others, l.var = v) ∨ s.Explained v

/-- If all remaining literals are false in a model, all marked literals of the trail are
true in it. -/
theorem Covered.holds (b : Footing g s) (covered : s.Covered others) (on : g.sound)
    (false_ : ∀ l ∈ others, -l ∈ s.net.trail.lits) {σ : Assignment}
    (model : Models σ g.formula) (refuted : ∀ l ∈ others, ¬l.Holds σ) {i : Nat} {m : Lit}
    (there : s.net.trail.lits[i]? = some m) (marked : s.Marked m.var) : m.Holds σ := by
  induction i using Nat.strongRecOn generalizing m with
  | ind i ih =>
    have w := b.trail
    rcases covered m.var marked with ⟨l, hl, same⟩ | ⟨j, m', why, ps, at_, same, behind, premises⟩
    · have e : -l = m := w.eq_of_var (false_ l hl) (Array.mem_of_getElem? there) same
      rw [← e]
      exact Lit.holds_neg.mpr (refuted l hl)
    · have place : j = i := w.index_unique at_.here there same
      subst place
      cases there.symm.trans at_.here
      obtain ⟨falsePs, entailed⟩ := b.implied on at_ behind
      have ne : why ≠ .decision := by
        intro same
        subst same
        exact behind
      obtain ⟨ps', behind', before⟩ := b.reasons at_ ne
      cases behind'.unique behind
      -- the premises are false, so the clause behind `m` makes it true
      have premisesFalse : ∀ q ∈ ps, ¬q.Holds σ := by
        intro q hq
        rw [← Lit.holds_neg]
        obtain ⟨j', x, lt, thereX, varX⟩ := before q hq
        have e : x = -q := w.eq_of_var (Array.mem_of_getElem? thereX) (falsePs q hq) varX
        subst e
        rcases premises q hq with markedQ | root
        · exact ih j' lt thereX markedQ
        · have fact := (w.mem_upTo_iff (falsePs q hq) root).mpr (Nat.le_refl 0)
          exact entails_singleton.mp (b.root on fact) σ model
      obtain ⟨l, hl, holds⟩ := entailed σ model
      rcases List.mem_cons.mp hl with rfl | hl
      · exact holds
      · exact absurd holds (premisesFalse l hl)

/-- The clause made of the remaining literals follows, as the marked ones follow from them. -/
theorem Covered.entails (b : Footing g s) (covered : s.Covered others) (on : g.sound)
    (false_ : ∀ l ∈ others, -l ∈ s.net.trail.lits) (raw_ : ∀ l ∈ raw, s.Marked l.var)
    (derives : Derives g s.net.trail (p :: raw)) : Entails g.formula (p :: others) := by
  intro σ model
  by_contra none
  have refuted : ∀ l ∈ p :: others, ¬l.Holds σ := by
    intro l hl holds
    exact none ⟨l, hl, holds⟩
  obtain ⟨falseRaw, entailed⟩ := derives on
  obtain ⟨l, hl, holds⟩ := entailed σ model
  rcases List.mem_cons.mp hl with rfl | hr
  · exact refuted _ List.mem_cons_self holds
  · obtain ⟨i, there⟩ := Array.mem_iff_getElem?.mp (falseRaw l hl)
    have others_ : ∀ m ∈ others, ¬m.Holds σ := fun m hm =>
      refuted m (List.mem_cons_of_mem _ hm)
    have negative := covered.holds b on false_ model others_ there (raw_ l hr)
    exact Lit.holds_neg.mp negative holds

/-- What holds while literals are replaced: `raw` are the literals at the start, and `k`
is the level of the asserting literal. -/
structure Replacing (g : Regime) (s : Solver) (k : Nat) (raw others : List Lit) : Prop where
  once : (others.map Lit.var).Nodup
  marked : ∀ l ∈ others, s.Marked l.var
  raw : ∀ l ∈ raw, s.Marked l.var
  covered : s.Covered others
  level : ∀ l ∈ others, ∃ j, s.net.trail.levelOf l.var = .ok j ∧ 0 < j ∧ j < k
  placed : ∀ l ∈ others, ∃ m ∈ s.net.trail.lits, m.var = l.var
  false_ : g.sound → ∀ l ∈ others, -l ∈ s.net.trail.lits

/-- Bookkeeping that keeps the marks keeps what holds of the literals. -/
theorem Replacing.kin (replacing : Replacing g s k raw others) (kin : s.Kin s')
    (marks : ∀ v, s'.Marked v ↔ s.Marked v) : Replacing g s' k raw others where
  once := replacing.once
  marked l hl := (marks _).mpr (replacing.marked l hl)
  raw l hl := (marks _).mpr (replacing.raw l hl)
  covered v yes :=
    (replacing.covered v ((marks v).mp yes)).imp_right
      fun explained => explained.kin kin fun u => (marks u).mpr
  level := by
    rw [kin.net.trail]
    exact replacing.level
  placed := by
    rw [kin.net.trail]
    exact replacing.placed
  false_ := by
    rw [kin.net.trail]
    exact replacing.false_

/-! ## Taking premises in -/

/-- What taking premises in does: `new` are those that were neither marked nor facts. -/
structure Absorbed (s : Solver) (lits marked : Array Lit) (ps : List Lit) (s' : Solver)
    (lits' marked' : Array Lit) (new : List Lit) : Prop where
  collected : lits'.toList = lits.toList ++ new
  recorded : marked'.toList = marked.toList ++ new
  ticks : s.Ticks s'
  once : (new.map Lit.var).Nodup
  source : ∀ l ∈ new, l ∈ ps
  fresh : ∀ l ∈ new, ¬s.Marked l.var
  above : ∀ l ∈ new, ∃ j, s.net.trail.levelOf l.var = .ok j ∧ 0 < j
  marks : ∀ v, s'.Marked v ↔ s.Marked v ∨ ∃ l ∈ new, l.var = v
  covered : ∀ q ∈ ps, s'.Marked q.var ∨ s.net.trail.levelOf q.var = .ok 0
  fewer : s'.unmarked + new.length = s.unmarked
  stats : s'.stats = s.stats
  /-- The variables of the new premises have become more active, one after another. -/
  order : (new.map Lit.var).foldlM Order.bump s.order = .ok s'.order

namespace Absorbed

variable {q : Lit} {ps new : List Lit}

theorem nil (s : Solver) (lits marked : Array Lit) :
    Absorbed s lits marked [] s lits marked [] where
  collected := (List.append_nil _).symm
  recorded := (List.append_nil _).symm
  ticks := .refl
  once := List.nodup_nil
  source := by simp
  fresh := by simp
  above := by simp
  marks := by simp
  covered := by simp
  fewer := rfl
  stats := rfl
  order := rfl

/-- A premise that is marked or a fact is passed over. -/
theorem skip (a : Absorbed s lits marked ps s' lits' marked' new)
    (old : s.Marked q.var ∨ s.net.trail.levelOf q.var = .ok 0) :
    Absorbed s lits marked (q :: ps) s' lits' marked' new where
  collected := a.collected
  recorded := a.recorded
  ticks := a.ticks
  once := a.once
  source l hl := List.mem_cons_of_mem q (a.source l hl)
  fresh := a.fresh
  above := a.above
  marks := a.marks
  covered m hm := by
    rcases List.mem_cons.mp hm with rfl | hm
    · exact old.imp_left fun yes => (a.marks _).mpr (.inl yes)
    · exact a.covered m hm
  fewer := a.fewer
  stats := a.stats
  order := a.order

/-- A new premise is marked, and its variable becomes more active. -/
theorem insert {s₁ s₂ : Solver} {level : Nat}
    (a : Absorbed s₂ (lits.push q) (marked.push q) ps s' lits' marked' new)
    (unseen : s.seen.get q.var = .ok false) (levelOf : s.net.trail.levelOf q.var = .ok level)
    (positive : 0 < level) (marking : s.mark q.var = .ok s₁)
    (bumping : s₁.updateOrder (·.bump q.var) = .ok s₂) :
    Absorbed s lits marked (q :: ps) s' lits' marked' (q :: new) := by
  obtain ⟨k₁, marks₁⟩ := mark_eq_ok marking
  obtain ⟨k₂, marks₂⟩ := bump_eq_ok bumping
  have marks : ∀ u, s₂.Marked u ↔ u = q.var ∨ s.Marked u := fun u => by rw [marks₂, marks₁]
  have trail : s₂.net.trail = s.net.trail := (k₁.trans k₂).net.trail
  have fewer := unmarked_mark unseen marking
  obtain ⟨order, bumped, e₂⟩ := updateOrder_eq_ok.mp bumping
  have same : s₂.unmarked = s₁.unmarked := by
    rw [e₂]
    rfl
  have rest₁ : s₁.stats = s.stats ∧ s₁.order = s.order := by
    obtain ⟨_, -, e₁⟩ := bind_eq_ok.mp marking
    cases e₁
    exact ⟨rfl, rfl⟩
  refine ⟨?_, ?_, .head (.mark marking) (.head (.bump bumping) a.ticks), ?_, fun l hl => ?_,
    fun l hl => ?_, fun l hl => ?_, fun v => ?_, fun m hm => ?_, ?_, ?_, ?_⟩
  · rw [a.collected, Array.toList_push, List.append_assoc]
    rfl
  · rw [a.recorded, Array.toList_push, List.append_assoc]
    rfl
  · rw [List.map_cons, List.nodup_cons]
    refine ⟨fun inside => ?_, a.once⟩
    obtain ⟨l, hl, e⟩ := List.mem_map.mp inside
    exact a.fresh l hl ((marks _).mpr (.inl e))
  · rcases List.mem_cons.mp hl with rfl | hl
    · exact List.mem_cons_self
    · exact List.mem_cons_of_mem q (a.source l hl)
  · rcases List.mem_cons.mp hl with rfl | hl
    · exact not_marked unseen
    · exact fun yes => a.fresh l hl ((marks _).mpr (.inr yes))
  · rcases List.mem_cons.mp hl with rfl | hl
    · exact ⟨level, levelOf, positive⟩
    · exact trail ▸ a.above l hl
  · rw [a.marks, marks]
    simp only [List.mem_cons, exists_eq_or_imp]
    tauto
  · rcases List.mem_cons.mp hm with rfl | hm
    · exact .inl ((a.marks _).mpr (.inl ((marks _).mpr (.inl rfl))))
    · exact trail ▸ a.covered m hm
  · have rest := a.fewer
    rw [List.length_cons]
    omega
  · exact a.stats.trans ((congrArg Solver.stats e₂).trans rest₁.1)
  · have order₂ : s₂.order = order := congrArg Solver.order e₂
    exact bind_eq_ok.mpr ⟨order, rest₁.2 ▸ bumped, order₂ ▸ a.order⟩

theorem kin (a : Absorbed s lits marked ps s' lits' marked' new) : s.Kin s' := a.ticks.kin

theorem listed (a : Absorbed s lits marked ps s' lits' marked' new)
    (h : s.Listed marked.toList) : s'.Listed marked'.toList := by
  rw [a.recorded]
  exact h.append a.marks

theorem size (a : Absorbed s lits marked ps s' lits' marked' new) :
    lits'.size = lits.size + new.length := by
  rw [← Array.length_toList, a.collected, List.length_append, Array.length_toList]

end Absorbed

/-- Taking premises in collects those that are new, each once. -/
theorem absorbPremises_spec {ps : List Lit}
    (h : s.absorbPremises lits marked ps = .ok (s', lits', marked')) :
    ∃ new, Absorbed s lits marked ps s' lits' marked' new := by
  induction ps generalizing s lits marked with
  | nil =>
      cases h
      exact ⟨[], .nil _ _ _⟩
  | cons q ps ih =>
      obtain ⟨seen, read, h⟩ := bind_eq_ok.mp h
      obtain ⟨level, levelOf, h⟩ := bind_eq_ok.mp h
      split at h
      next fresh =>
        obtain ⟨s₁, marking, h⟩ := bind_eq_ok.mp h
        obtain ⟨s₂, bumping, h⟩ := bind_eq_ok.mp h
        simp only [Bool.and_eq_true, Bool.not_eq_true', decide_eq_true_eq] at fresh
        obtain ⟨unseen, positive⟩ := fresh
        obtain ⟨rest, a⟩ := ih h
        exact ⟨q :: rest, a.insert (unseen ▸ read) levelOf positive marking bumping⟩
      next old =>
        simp only [Bool.and_eq_true, Bool.not_eq_true', decide_eq_true_eq, not_and,
          Nat.not_lt, Nat.le_zero] at old
        obtain ⟨rest, a⟩ := ih h
        refine ⟨rest, a.skip ?_⟩
        cases seen with
        | true => exact .inl read
        | false => exact .inr (old rfl ▸ levelOf)

/-! ## Replacing -/

/-- Erasing a literal by exchange with the last one loses no other. -/
theorem swapErase_perm {lits : Array Lit} {i : Nat} {q : Lit} (h : lits[i]? = some q) :
    (q :: (swapErase lits i).toList).Perm lits.toList := by
  obtain ⟨inside, here⟩ := Array.getElem?_eq_some_iff.mp h
  unfold swapErase
  split
  next last ends =>
    obtain ⟨rest, rfl⟩ := Array.back?_eq_some_iff.mp ends
    rw [Array.size_push] at inside
    have toList : ((rest.push last).setIfInBounds i last).pop.toList =
        ((rest.toList ++ [last]).set i last).dropLast := by
      rw [Array.toList_pop, Array.toList_setIfInBounds, Array.toList_push]
    rw [toList, Array.toList_push]
    by_cases low : i < rest.size
    · have low' : i < rest.toList.length := low
      rw [List.set_append_left _ _ low', List.dropLast_concat]
      have e : rest.toList[i] = q := by
        rw [← here, Array.getElem_push_lt low]
        rfl
      have swapped := (List.set_perm_cons_eraseIdx low' last).cons q
      have back := List.getElem_cons_eraseIdx_perm low'
      rw [e] at back
      exact swapped.trans ((List.Perm.swap _ _ _).trans
        ((back.cons last).trans (List.perm_append_singleton last _).symm))
    · have top : i = rest.size := by omega
      subst top
      have e : last = q := by rw [← here, Array.getElem_push_eq]
      subst e
      have set_ : (rest.toList ++ [last]).set rest.size last = rest.toList ++ [last] := by
        change (rest.toList ++ [last]).set rest.toList.length last = _
        rw [List.set_append_right _ _ (Nat.le_refl _), Nat.sub_self]
        rfl
      rw [set_, List.dropLast_concat]
      exact (List.perm_append_singleton last _).symm
  next none =>
    rw [Array.back?_eq_none_iff.mp none] at inside
    exact absurd inside (Nat.not_lt_zero _)

/-- A literal before the one that is replaced stays where it is. -/
theorem getElem?_swapErase {i j : Nat} {q : Lit} (there : lits[i]? = some q) (before : j < i) :
    (swapErase lits i)[j]? = lits[j]? := by
  obtain ⟨inside, -⟩ := Array.getElem?_eq_some_iff.mp there
  unfold swapErase
  split
  · have ne : i ≠ j := Nat.ne_of_gt before
    have low : j < lits.size - 1 := by omega
    rw [Array.getElem?_pop, if_pos (by simpa using low), Array.getElem?_setIfInBounds_ne ne]
  · rfl

/-- A reason is looked up as it stands. -/
theorem premises_eq {n : Network} {l : Lit} {ps qs : List Lit} {why : Reason}
    (h : n.premises why = .ok qs) (behind : n.Behind l ps why) : qs = ps := by
  cases why with
  | decision => cases behind
  | binary a =>
      cases h
      exact behind.symm
  | ternary a c =>
      cases h
      exact behind.symm
  | clause id =>
      obtain ⟨c, read, h⟩ := bind_eq_ok.mp h
      cases h
      obtain ⟨d, stored, -, rfl⟩ := behind
      have here : n.body? id = some c.body := Arena.body?_of_get read
      cases stored.symm.trans here
      rfl

/-- A literal gives way to those of its premises that are new. -/
theorem Replacing.replace {q m : Lit} {i : Nat} {why : Reason} {ps new : List Lit}
    (b : Footing g s) (replacing : Replacing g s k raw others)
    (perm : (q :: lits.toList).Perm others) (var : m.var = q.var) (at_ : s.net.Assigned i m why)
    (behind : s.net.Behind m ps why) (placed : ∀ l ∈ ps, Placed s.net.trail i l)
    (falsePs : g.sound → ∀ l ∈ ps, -l ∈ s.net.trail.lits)
    (a : Absorbed s lits marked ps s' lits' marked' new) : Replacing g s' k raw lits'.toList := by
  have kept : ∀ l ∈ lits.toList, l ∈ others := fun l hl =>
    perm.mem_iff.mp (List.mem_cons_of_mem _ hl)
  have more : ∀ v, s.Marked v → s'.Marked v := fun v yes => (a.marks v).mpr (.inl yes)
  have trail : s'.net.trail = s.net.trail := a.kin.net.trail
  rw [a.collected]
  refine ⟨?_, fun l hl => ?_, fun l hl => more _ (replacing.raw l hl), fun v yes => ?_,
    fun l hl => ?_, fun l hl => ?_, fun on l hl => ?_⟩
  · have whole := ((perm.map Lit.var).nodup_iff).mpr replacing.once
    rw [List.map_cons, List.nodup_cons] at whole
    rw [List.map_append, List.nodup_append]
    refine ⟨whole.2, a.once, ?_⟩
    intro v hv u hu same
    obtain ⟨l, hl, rfl⟩ := List.mem_map.mp hv
    obtain ⟨x, hx, rfl⟩ := List.mem_map.mp hu
    exact a.fresh x hx (same ▸ replacing.marked l (kept l hl))
  · rcases List.mem_append.mp hl with old | fresh
    · exact more _ (replacing.marked l (kept l old))
    · exact (a.marks _).mpr (.inr ⟨l, fresh, rfl⟩)
  · rcases (a.marks v).mp yes with old | ⟨l, hl, same⟩
    · rcases replacing.covered v old with ⟨l, hl, same⟩ | explained
      · rcases List.mem_cons.mp (perm.mem_iff.mpr hl) with rfl | hl
        · refine .inr ⟨i, m, why, ps, a.kin.net.assigned.mpr at_, var.trans same,
            a.kin.net.behind.mpr behind, ?_⟩
          rw [trail]
          exact a.covered
        · exact .inl ⟨l, List.mem_append_left _ hl, same⟩
      · exact .inr (explained.kin a.kin more)
    · exact .inl ⟨l, List.mem_append_right _ hl, same⟩
  · rw [trail]
    rcases List.mem_append.mp hl with old | fresh
    · exact replacing.level l (kept l old)
    · -- a premise stands before the literal, so its level is no higher
      obtain ⟨j, levelL, positive⟩ := a.above l fresh
      obtain ⟨n, x, lt, thereX, varX⟩ := placed l (a.source l fresh)
      obtain ⟨j', levelQ, -, low⟩ := replacing.level q (perm.mem_iff.mp List.mem_cons_self)
      have levelX : s.net.trail.levelOf x.var = .ok j := varX ▸ levelL
      rw [← var] at levelQ
      have le := level_le_of_lt b.trail at_.here thereX lt levelQ levelX
      exact ⟨j, levelL, positive, Nat.lt_of_le_of_lt le low⟩
  · rw [trail]
    rcases List.mem_append.mp hl with old | fresh
    · exact replacing.placed l (kept l old)
    · obtain ⟨n, x, -, thereX, varX⟩ := placed l (a.source l fresh)
      exact ⟨x, Array.mem_of_getElem? thereX, varX⟩
  · rw [trail]
    rcases List.mem_append.mp hl with old | fresh
    · exact replacing.false_ on l (kept l old)
    · exact falsePs on l (a.source l fresh)

/-- A literal that is implied has its premises before it on the trail. -/
theorem Replacing.reason {q : Lit} {why : Reason} (b : Footing g s)
    (replacing : Replacing g s k raw others) (hq : q ∈ others)
    (reasonOf : s.net.trail.reasonOf q.var = .ok why) (ne : why ≠ .decision) :
    ∃ i m ps, m.var = q.var ∧ s.net.Assigned i m why ∧ s.net.Behind m ps why ∧
      (∀ l ∈ ps, Placed s.net.trail i l) ∧ (g.sound → ∀ l ∈ ps, -l ∈ s.net.trail.lits) := by
  obtain ⟨m, hm, var⟩ := replacing.placed q hq
  obtain ⟨i, there⟩ := Array.mem_iff_getElem?.mp hm
  obtain ⟨j, levelQ, positive, -⟩ := replacing.level q hq
  rw [← var] at levelQ reasonOf
  obtain ⟨ps, at_, behind, placed, entailed⟩ := b.reason there levelQ positive reasonOf ne
  exact ⟨i, m, ps, var, at_, behind, placed, fun on => (entailed on).1⟩

/-- The replacing of a literal is counted and logged. -/
def countReplaced (s : Solver) (q : Lit) (ps : List Lit) : Solver :=
  { s with stats := { s.stats with
    replacedLiterals := s.stats.replacedLiterals + 1 } }.log (.replaceUnreliable q ps)

theorem kin_countReplaced (s : Solver) (q : Lit) (ps : List Lit) :
    s.Kin (s.countReplaced q ps) := by
  have counted : s.Kin { s with stats := { s.stats with
      replacedLiterals := s.stats.replacedLiterals + 1 } } := kin_of_eq rfl rfl rfl rfl
  exact counted.trans (kin_log rfl _)

/-- The literal at place `i` is implied and may not be learnt.  It is replaced by those of
its premises that are new. -/
structure Replaces (s : Solver) (lits marked : Array Lit) (i : Nat) (q : Lit) (why : Reason)
    (ps : List Lit) (s' : Solver) (lits' marked' : Array Lit) : Prop where
  there : lits[i]? = some q
  origin : s.net.trail.reasonOf q.var = .ok why
  unreliable : s.isReliable q.var = .ok false
  implied : why ≠ .decision
  premises : s.net.premises why = .ok ps
  absorbed : (s.countReplaced q ps).absorbPremises (swapErase lits i) marked ps =
    .ok (s', lits', marked')

section Loop

variable {fuel i : Nat} {q : Lit} {why : Reason} {ps : List Lit}

/-- What holds before the loop and is kept when a literal is passed and when one is replaced
holds at its end, where no literal is left to be looked at. -/
theorem replaceUnreliable_rule {P : Solver → Array Lit → Array Lit → Nat → Prop}
    (pass : ∀ {s lits marked i q}, P s lits marked i → lits[i]? = some q → s.Admissible q →
      P s lits marked (i + 1))
    (replace : ∀ {s lits marked i q why ps s' lits' marked'}, P s lits marked i →
      Replaces s lits marked i q why ps s' lits' marked' → P s' lits' marked' i)
    (h : replaceUnreliable fuel s lits marked i = .ok (s', lits', marked'))
    (start : P s lits marked i) : ∃ j, P s' lits' marked' j ∧ lits'[j]? = none := by
  induction fuel generalizing s lits marked i with
  | zero =>
      unfold replaceUnreliable at h
      split at h
      next done =>
        cases h
        exact ⟨i, start, done⟩
      next => cases h
  | succ fuel ih =>
      unfold replaceUnreliable at h
      split at h
      next done =>
        cases h
        exact ⟨i, start, done⟩
      next q there =>
        obtain ⟨why, origin, h⟩ := bind_eq_ok.mp h
        obtain ⟨reliable, tested, h⟩ := bind_eq_ok.mp h
        split at h
        next fine => exact ih h (pass start there ⟨reliable, why, tested, origin, fine⟩)
        next unfit =>
          obtain ⟨ps, premises, h⟩ := bind_eq_ok.mp h
          obtain ⟨⟨s₁, lits₁, marked₁⟩, absorbed, h⟩ := bind_eq_ok.mp h
          simp only [Bool.or_eq_true, decide_eq_true_eq, not_or, Bool.not_eq_true] at unfit
          obtain ⟨rfl, implied⟩ := unfit
          exact ih h (replace start ⟨there, origin, tested, implied, premises, absorbed⟩)

/-- One literal is replaced by its premises. -/
theorem Replacing.absorb (b : Footing g s) (replacing : Replacing g s k raw lits.toList)
    (r : Replaces s lits marked i q why ps s' lits' marked') :
    s.Kin s' ∧ Replacing g s' k raw lits'.toList := by
  have k₁ : s.Kin (s.countReplaced q ps) := kin_countReplaced s q ps
  have replacing₁ := replacing.kin k₁ fun _ => .rfl
  have hq : q ∈ lits.toList := Array.mem_toList_iff.mpr (Array.mem_of_getElem? r.there)
  obtain ⟨n, m, ps', var, at_, behind, placed, falsePs⟩ :=
    replacing₁.reason (k₁.footing b) hq r.origin r.implied
  cases premises_eq r.premises behind
  obtain ⟨new, a⟩ := absorbPremises_spec r.absorbed
  exact ⟨k₁.trans a.kin, replacing₁.replace (k₁.footing b) (swapErase_perm r.there) var at_ behind
    placed falsePs a⟩

/-- What holds while literals are replaced holds at the end of the loop. -/
theorem replaceUnreliable_replacing (b : Footing g s)
    (h : replaceUnreliable fuel s lits marked i = .ok (s', lits', marked'))
    (replacing : Replacing g s k raw lits.toList) :
    s.Kin s' ∧ Replacing g s' k raw lits'.toList := by
  obtain ⟨-, kept, -⟩ := replaceUnreliable_rule
    (P := fun s₁ lits _ _ => s.Kin s₁ ∧ Replacing g s₁ k raw lits.toList)
    (fun kept _ _ => kept)
    (fun ⟨k₁, replacing₁⟩ r =>
      have ⟨k₂, replacing₂⟩ := replacing₁.absorb (k₁.footing b) r
      ⟨k₁.trans k₂, replacing₂⟩)
    h ⟨.refl s, replacing⟩
  exact kept

/-- The literals that are left may all stand in a learnt clause. -/
theorem replaceUnreliable_admissible
    (h : replaceUnreliable fuel s lits marked 0 = .ok (s', lits', marked')) :
    (∀ l ∈ lits', s'.Admissible l) ∧ s.Retains s' ∧
      (s.Listed marked.toList → s'.Listed marked'.toList) := by
  -- the literals before the place that the loop has come to may be learnt
  let P : Solver → Array Lit → Array Lit → Nat → Prop := fun s₁ lits₁ marked₁ i =>
    (∀ j < i, ∀ l, lits₁[j]? = some l → s₁.Admissible l) ∧ s.Retains s₁ ∧
      (s.Listed marked.toList → s₁.Listed marked₁.toList)
  have pass : ∀ {s lits marked i q}, P s lits marked i → lits[i]? = some q → s.Admissible q →
      P s lits marked (i + 1) := by
    rintro s₁ lits₁ marked₁ i q ⟨before, rest⟩ there fine
    refine ⟨fun j low l thereL => ?_, rest⟩
    rcases Nat.lt_succ_iff_lt_or_eq.mp low with lt | rfl
    · exact before j lt l thereL
    · cases there.symm.trans thereL
      exact fine
  have replace : ∀ {s lits marked i q why ps s' lits' marked'}, P s lits marked i →
      Replaces s lits marked i q why ps s' lits' marked' → P s' lits' marked' i := by
    rintro s₁ lits₁ marked₁ i q why ps s₂ lits₂ marked₂ ⟨before, k, listed⟩ r
    obtain ⟨new, a⟩ := absorbPremises_spec r.absorbed
    have k₂ : s₁.Retains s₂ := ⟨a.ticks.retains.info, a.ticks.retains.trail⟩
    refine ⟨fun j low l thereL => ?_, k.trans k₂, fun marks => a.listed (listed marks)⟩
    have inside := (Array.getElem?_eq_some_iff.mp r.there).1
    have size := (swapErase_perm r.there).length_eq
    rw [List.length_cons, Array.length_toList, Array.length_toList] at size
    have old : j < (swapErase lits₁ i).toList.length := by
      rw [Array.length_toList]
      omega
    rw [← Array.getElem?_toList, a.collected, List.getElem?_append_left old, Array.getElem?_toList,
      getElem?_swapErase r.there low] at thereL
    exact k₂.admissible (before j low l thereL)
  obtain ⟨j, ⟨before, rest⟩, done⟩ :=
    replaceUnreliable_rule (P := P) pass replace h ⟨nofun, .refl s, id⟩
  refine ⟨fun l hl => ?_, rest⟩
  obtain ⟨i, there⟩ := Array.mem_iff_getElem?.mp hl
  have inside := (Array.getElem?_eq_some_iff.mp there).1
  exact before i (Nat.lt_of_lt_of_le inside (Array.getElem?_eq_none_iff.mp done)) l there

end Loop

/-- The replacing starts from the clause that the walk ended with. -/
theorem Resolved.replacing (h : Resolved g s p others) (lower : ∀ l ∈ others,
    ∃ j, s.net.trail.levelOf l.var = .ok j ∧ 0 < j ∧ j < k) :
    Replacing g s k others others where
  once := by
    have once := h.once
    rw [List.map_cons, List.nodup_cons] at once
    exact once.2
  marked l hl := (h.marked _).mpr ⟨l, hl, rfl⟩
  raw l hl := (h.marked _).mpr ⟨l, hl, rfl⟩
  covered v yes := .inl ((h.marked v).mp yes)
  level := lower
  placed := h.placed
  false_ on l hl := (h.derives on).1 l (List.mem_cons_of_mem _ hl)

end Cdcl.Solver
