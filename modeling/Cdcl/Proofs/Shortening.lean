import Cdcl.Proofs.Replacing

/-!
# Reworking the learnt clause

The second half of conflict analysis: literals of the resolved clause are replaced by
their premises or dropped, and what is left is the clause to learn.

`Analyzed` lists the steps of an analysis.  `Taught` says what the analysis promises of the
clause to learn: `analyze_taught`.  No mark is left behind: `clear_analyze`.
-/

namespace Cdcl.Solver

open Network (Regime)

variable {g : Regime} {s s' : Solver} {k : Nat} {raw others kept : List Lit} {id : ClauseId}
  {result : Option Lesson}

/-! ## Dropping literals -/

/-- The premises of a literal that is dropped are marked, or facts. -/
theorem anyUncovered_false {qs : List Lit} (h : s.anyUncovered qs = .ok false) :
    ∀ q ∈ qs, s.Marked q.var ∨ s.net.trail.levelOf q.var = .ok 0 := by
  induction qs with
  | nil => exact fun q hq => absurd hq List.not_mem_nil
  | cons a qs ih =>
      obtain ⟨seen, read, h⟩ := bind_eq_ok.mp h
      obtain ⟨level, levelOf, h⟩ := bind_eq_ok.mp h
      split at h
      · cases h
      next old =>
        intro q hq
        rcases List.mem_cons.mp hq with rfl | hq
        · simp only [Bool.and_eq_true, Bool.not_eq_true', decide_eq_true_eq, not_and,
            Nat.not_lt, Nat.le_zero] at old
          cases seen with
          | true => exact .inl read
          | false => exact .inr (old rfl ▸ levelOf)
        · exact ih h q hq

/-- Only literals with marked premises are dropped. -/
theorem minimize_covered (b : Footing g s) (replacing : Replacing g s k raw others)
    (h : s.minimize others = .ok kept) : kept.Sublist others ∧ s.Covered kept := by
  unfold minimize at h
  split at h
  next =>
    cases h
    exact ⟨.refl _, replacing.covered⟩
  next =>
    obtain ⟨sub, mem, total⟩ := filterM_eq_ok h
    refine ⟨sub, fun v yes => ?_⟩
    rcases replacing.covered v yes with ⟨l, hl, same⟩ | explained
    · by_cases stays : l ∈ kept
      · exact .inl ⟨l, stays, same⟩
      · right
        obtain ⟨stay, tested⟩ := total l hl
        cases stay with
        | true => exact absurd ((mem l).mpr ⟨hl, tested⟩) stays
        | false =>
            obtain ⟨why, reasonOf, tested⟩ := bind_eq_ok.mp tested
            by_cases decision : why = .decision
            · subst decision
              cases tested
            · obtain ⟨n, m, ps, var, at_, behind, -⟩ :=
                replacing.reason b hl reasonOf decision
              have asked : (s.net.premises why >>= s.anyUncovered) = .ok false := by
                cases why with
                | decision => exact absurd rfl decision
                | _ => exact tested
              obtain ⟨qs, read, asked⟩ := bind_eq_ok.mp asked
              cases premises_eq read behind
              exact ⟨n, m, why, ps, at_, var.trans same, behind, anyUncovered_false asked⟩
    · exact .inr explained

/-! ## The level to go back to -/

/-- The walk in search of the latest level finds a literal of it, and none is later. -/
theorem latest_spec {t : Trail} {all ls : List Lit} {best level i best' level' : Nat}
    (h : latest t best level i ls = .ok (best', level')) (rest : ls = all.drop i)
    (at_ : ∃ x, all[best]? = some x ∧ t.levelOf x.var = .ok level)
    (below : ∀ l ∈ all.take i, ∃ j, t.levelOf l.var = .ok j ∧ j ≤ level) :
    (∃ x, all[best']? = some x ∧ t.levelOf x.var = .ok level') ∧
      ∀ l ∈ all, ∃ j, t.levelOf l.var = .ok j ∧ j ≤ level' := by
  induction ls generalizing best level i with
  | nil =>
      cases h
      refine ⟨at_, fun l hl => below l ?_⟩
      rw [List.take_of_length_le (List.drop_eq_nil_iff.mp rest.symm)]
      exact hl
  | cons a ls ih =>
      obtain ⟨here, levelOf, h⟩ := bind_eq_ok.mp h
      have there : all[i]? = some a := by
        rw [← List.head?_drop, ← rest]
        rfl
      have rest' : ls = all.drop (i + 1) := by
        rw [← List.tail_drop, ← rest]
        rfl
      have next_ : all.take (i + 1) = all.take i ++ [a] := by
        rw [List.take_add_one, there]
        rfl
      split at h
      next higher =>
        refine ih h rest' ⟨a, there, levelOf⟩ fun l hl => ?_
        rw [next_, List.mem_append, List.mem_singleton] at hl
        rcases hl with hl | rfl
        · obtain ⟨j, levelL, le⟩ := below l hl
          exact ⟨j, levelL, by omega⟩
        · exact ⟨here, levelOf, Nat.le_refl _⟩
      next lower =>
        refine ih h rest' at_ fun l hl => ?_
        rw [next_, List.mem_append, List.mem_singleton] at hl
        rcases hl with hl | rfl
        · exact below l hl
        · exact ⟨here, levelOf, Nat.le_of_not_lt lower⟩

/-- The literals with one of the greatest level first. -/
theorem latestFirst_spec {t : Trail} {lits : List Lit} {level : Nat}
    (h : latestFirst t others = .ok (lits, level)) : lits.Perm others ∧
      (∀ l ∈ lits, ∃ j, t.levelOf l.var = .ok j ∧ j ≤ level) ∧
      (∀ l, lits.head? = some l → t.levelOf l.var = .ok level) ∧
      (lits = [] → level = 0) := by
  cases others with
  | nil =>
      cases h
      exact ⟨.refl _, by simp, by simp, fun _ => rfl⟩
  | cons a ls =>
      obtain ⟨first, levelOf, h⟩ := bind_eq_ok.mp h
      obtain ⟨⟨best, level'⟩, found, h⟩ := bind_eq_ok.mp h
      cases h
      have rest : ls = (a :: ls).drop 1 := rfl
      obtain ⟨⟨x, there, levelX⟩, below⟩ := latest_spec found rest ⟨a, rfl, levelOf⟩
        (by simpa using ⟨first, levelOf, Nat.le_refl _⟩)
      obtain ⟨inside, e⟩ := List.getElem?_eq_some_iff.mp there
      have zero : 0 < (a :: ls).toArray.size := Nat.succ_pos _
      have inBounds : best < (a :: ls).toArray.size := inside
      have swap : (a :: ls).toArray.swapIfInBounds best 0 =
          (a :: ls).toArray.swap best 0 inBounds zero := by
        unfold Array.swapIfInBounds
        rw [dif_pos inBounds, dif_pos zero]
      have perm : ((a :: ls).toArray.swapIfInBounds best 0).toList.Perm (a :: ls) := by
        rw [swap]
        exact (Array.perm_iff_toList_perm.mp (Array.swap_perm inBounds zero))
      refine ⟨perm, fun l hl => below l (perm.mem_iff.mp hl), fun l head => ?_, ?_⟩
      · have top : l = x := by
          rw [List.head?_eq_getElem?, Array.getElem?_toList, swap,
            Array.getElem?_eq_getElem (by simp), Array.getElem_swap_right] at head
          exact (Option.some.inj head).symm.trans e
        exact top ▸ levelX
      · intro none
        have length := perm.length_eq
        rw [none] at length
        cases length

theorem allHave_true {t : Trail} {x : Truth} {ls : List Lit}
    (h : allHave t x ls = .ok true) : ∀ l ∈ ls, t.litValue l = .ok x := by
  induction ls with
  | nil => exact fun l hl => absurd hl List.not_mem_nil
  | cons a ls ih =>
      obtain ⟨y, read, h⟩ := bind_eq_ok.mp h
      split at h
      next same =>
        intro l hl
        rcases List.mem_cons.mp hl with rfl | hl
        · exact same ▸ read
        · exact ih h l hl
      next => cases h

/-! ## The whole analysis -/

/-- What the analysis promises of the clause to learn. -/
structure Taught (g : Regime) (s : Solver) (l : Lesson) : Prop where
  once : ((l.asserting :: l.others).map Lit.var).Nodup
  false_ : ∀ q ∈ l.asserting :: l.others, -q ∈ s.net.trail.lits
  above : ∃ k, s.net.trail.levelOf l.asserting.var = .ok k ∧ l.level < k
  below : ∀ q ∈ l.others, ∃ j, s.net.trail.levelOf q.var = .ok j ∧ 0 < j ∧ j ≤ l.level
  head : ∀ q, l.others.head? = some q → s.net.trail.levelOf q.var = .ok l.level
  entails : g.sound → Entails g.formula (l.asserting :: l.others)

/-- What the analysis answers. -/
def Concludes (g : Regime) (s : Solver) : Option Lesson → Prop
  | some l => Taught g s l
  | none => g.sound → Unsatisfiable g.formula

/-- The steps of an analysis: a clause is resolved up to the literal `p`, the other literals
are replaced, shortened and arranged, and the marks are taken away; or the conflict follows
from the root level. -/
inductive Analyzed (s : Solver) (id : ClauseId) : Solver → Option Lesson → Prop
  | root {entry : Stored} {s' : Solver} : Flags.isClear s.seen = true →
      s.net.db.arena.stored id = .ok entry →
      (s.log (.analyze entry.place s.level)).resolve id = .ok (s', none) → Analyzed s id s' none
  | lesson {entry : Stored} {level : Nat} {s₁ s₂ s' : Solver} {p : Lit}
      {others kept final : List Lit} {lits marked : Array Lit} : Flags.isClear s.seen = true →
      s.net.db.arena.stored id = .ok entry →
      (s.log (.analyze entry.place s.level)).resolve id = .ok (s₁, some (p, others)) →
      s₁.litValue p = .ok .holds →
      s₁.replaceAll others = .ok (s₂, lits, marked) →
      s₂.minimize lits.toList = .ok kept →
      latestFirst s₂.net.trail kept = .ok (final, level) →
      (s₂.countLiterals lits.size kept.length).clearMarks marked.toList = .ok s' →
      allHave s'.net.trail .fails (-p :: final) = .ok true →
      s'.allAdmissible final = .ok true →
      Analyzed s id s' (some { asserting := -p, others := final, level })

/-- What has been gathered from a clause, with the tests that were passed. -/
theorem gather_eq_ok {gathered : Option (Lit × List Lit)} (h : s.gather id = .ok (s', gathered)) :
    ∃ entry, Flags.isClear s.seen = true ∧ s.net.db.arena.stored id = .ok entry ∧
      (s.log (.analyze entry.place s.level)).resolve id = .ok (s', gathered) ∧
      ∀ p others, gathered = some (p, others) → s'.litValue p = .ok .holds := by
  obtain ⟨_, clear, h⟩ := bind_eq_ok.mp h
  obtain ⟨entry, stored, h⟩ := bind_eq_ok.mp h
  obtain ⟨⟨s₁, resolved⟩, resolving, h⟩ := bind_eq_ok.mp h
  refine ⟨entry, ensure_eq_ok.mp clear, stored, ?_⟩
  cases resolved with
  | none =>
      cases h
      exact ⟨resolving, nofun⟩
  | some answer =>
      obtain ⟨p, others⟩ := answer
      obtain ⟨truth, read, h⟩ := bind_eq_ok.mp h
      obtain ⟨_, holds, h⟩ := bind_eq_ok.mp h
      cases h
      have holds : truth = .holds := of_decide_eq_true (ensure_eq_ok.mp holds)
      refine ⟨resolving, fun _ _ same => ?_⟩
      cases same
      exact holds ▸ read

/-- A lesson has been made in the steps of an analysis, all but the last test. -/
theorem compose_eq_ok {s₁ : Solver} {p : Lit} {others : List Lit}
    (h : compose (s₁, some (p, others)) = .ok (s', result)) :
    ∃ s₂ lits marked kept final level, s₁.replaceAll others = .ok (s₂, lits, marked) ∧
      s₂.minimize lits.toList = .ok kept ∧
      latestFirst s₂.net.trail kept = .ok (final, level) ∧
      (s₂.countLiterals lits.size kept.length).clearMarks marked.toList = .ok s' ∧
      allHave s'.net.trail .fails (-p :: final) = .ok true ∧
      result = some { asserting := -p, others := final, level } := by
  obtain ⟨⟨s₂, lits, marked⟩, replaced, h⟩ := bind_eq_ok.mp h
  obtain ⟨kept, minimized, h⟩ := bind_eq_ok.mp h
  obtain ⟨⟨final, level⟩, arranged, h⟩ := bind_eq_ok.mp h
  obtain ⟨s₃, cleared, h⟩ := bind_eq_ok.mp h
  obtain ⟨false_, falsified, h⟩ := bind_eq_ok.mp h
  obtain ⟨_, allFalse, h⟩ := bind_eq_ok.mp h
  cases h
  have allFalse : false_ = true := ensure_eq_ok.mp allFalse
  exact ⟨s₂, lits, marked, kept, final, level, replaced, minimized, arranged, cleared,
    allFalse ▸ falsified, rfl⟩

/-- The last test changes nothing; it has found every literal admissible. -/
theorem testLesson_eq_ok {r : Solver × Option Lesson} (h : testLesson r = .ok (s', result)) :
    r = (s', result) ∧ ∀ l, result = some l → s'.allAdmissible l.others = .ok true := by
  obtain ⟨s₁, _ | lesson⟩ := r
  · cases h
    exact ⟨rfl, nofun⟩
  · obtain ⟨fine, tested, h⟩ := bind_eq_ok.mp h
    obtain ⟨_, allFine, h⟩ := bind_eq_ok.mp h
    cases h
    have allFine : fine = true := ensure_eq_ok.mp allFine
    refine ⟨rfl, fun _ same => ?_⟩
    cases same
    exact allFine ▸ tested

/-- An analysis that answers has gone through its steps, with all tests passed. -/
theorem analyzed_of_ok (h : s.analyze id = .ok (s', result)) : Analyzed s id s' result := by
  obtain ⟨derived, derives, h⟩ := bind_eq_ok.mp h
  obtain ⟨rfl, fine⟩ := testLesson_eq_ok h
  obtain ⟨⟨s₁, gathered⟩, gathering, composed⟩ := bind_eq_ok.mp derives
  obtain ⟨entry, clear, stored, resolving, holds⟩ := gather_eq_ok gathering
  cases gathered with
  | none =>
      cases composed
      exact .root clear stored resolving
  | some answer =>
      obtain ⟨p, others⟩ := answer
      obtain ⟨s₂, lits, marked, kept, final, level, replaced, minimized, arranged, cleared,
        falsified, rfl⟩ := compose_eq_ok composed
      exact .lesson clear stored resolving (holds p others rfl) replaced minimized arranged
        cleared falsified (fine _ rfl)

/-- The analysis keeps its promise for a clause that the trail makes false. -/
theorem analyze_taught (b : Footing g s) (rejects : Rejects g s id)
    (h : s.analyze id = .ok (s', result)) : s.Kin s' ∧ Concludes g s' result := by
  cases analyzed_of_ok h with
  | @root entry _ clear stored resolving =>
      have k₀ : s.Kin (s.log (.analyze entry.place s.level)) := kin_log rfl _
      obtain ⟨k₁, ends⟩ := resolve_resolved (k₀.footing b) rejects clear resolving
      exact ⟨k₀.trans k₁, ends⟩
  | @lesson entry level s₁ s₂ _ p others kept final lits marked clear stored resolving holds
      replaced minimized arranged cleared falsified tested =>
      have k₀ : s.Kin (s.log (.analyze entry.place s.level)) := kin_log rfl _
      obtain ⟨k₁, ends⟩ := resolve_resolved (k₀.footing b) rejects clear resolving
      have ends : Resolved g s₁ p others := ends
      obtain ⟨k, levelP, positive, lower⟩ := ends.level
      obtain ⟨k₂, replacing⟩ :=
        replaceUnreliable_replacing (k₁.footing (k₀.footing b)) replaced
          (ends.replacing lower)
      have counted : s₂.Kin (s₂.countLiterals lits.size kept.length) := kin_of_eq rfl rfl rfl rfl
      have k₃ := counted.trans (clearMarks_ticks cleared).kin
      have whole := ((k₀.trans k₁).trans k₂).trans k₃
      have b₂ : Footing g s₂ := ((k₀.trans k₁).trans k₂).footing b
      obtain ⟨sub, covered⟩ := minimize_covered b₂ replacing minimized
      obtain ⟨perm, below, head, none_⟩ := latestFirst_spec arranged
      have trail : s₂.net.trail = s'.net.trail := k₃.net.trail.symm
      have same : s₁.net.trail = s₂.net.trail := k₂.net.trail.symm
      rw [trail] at below head
      have inside : ∀ l ∈ final, l ∈ lits.toList := fun l hl => sub.mem (perm.mem_iff.mp hl)
      have lower_ : ∀ l ∈ final, ∃ j, s'.net.trail.levelOf l.var = .ok j ∧ 0 < j ∧ j < k := by
        intro l hl
        obtain ⟨j, levelOf, low⟩ := replacing.level l (inside l hl)
        exact ⟨j, trail ▸ levelOf, low⟩
      have levelP : s'.net.trail.levelOf p.var = .ok k := trail ▸ same ▸ levelP
      refine ⟨whole, ?_, fun q hq => ?_, ⟨k, levelP, ?_⟩, fun q hq => ?_, head, fun on => ?_⟩
      · have once : (final.map Lit.var).Nodup :=
          ((perm.map Lit.var).nodup_iff).mpr ((sub.map Lit.var).nodup replacing.once)
        rw [List.map_cons, List.nodup_cons]
        refine ⟨fun doubled => ?_, once⟩
        obtain ⟨l, hl, e⟩ := List.mem_map.mp doubled
        obtain ⟨j, levelOf, -, low⟩ := lower_ l hl
        have e : l.var = p.var := e
        rw [e] at levelOf
        cases levelP.symm.trans levelOf
        exact Nat.lt_irrefl _ low
      · exact (whole.footing b).trail.fails_iff.mp (allHave_true falsified q hq)
      · cases final with
        | nil => exact none_ rfl ▸ positive
        | cons q rest =>
            obtain ⟨j, levelOf, -, low⟩ := lower_ q List.mem_cons_self
            cases (head q rfl).symm.trans levelOf
            exact low
      · obtain ⟨j, levelOf, le⟩ := below q hq
        obtain ⟨j', levelOf', above, -⟩ := lower_ q hq
        cases levelOf.symm.trans levelOf'
        exact ⟨j, levelOf, above, le⟩
      · have falseKept : ∀ l ∈ kept, -l ∈ s₂.net.trail.lits := fun l hl =>
          replacing.false_ on l (sub.mem hl)
        have entailed :=
          covered.entails b₂ on falseKept replacing.raw (same ▸ ends.derives)
        exact entailed.mono fun l hl => (perm.cons _).mem_iff.mpr hl

/-- The analysis leaves no mark behind. -/
theorem clear_analyze (b : Footing g s) (rejects : Rejects g s id)
    (h : s.analyze id = .ok (s', result)) : Flags.isClear s'.seen = true := by
  cases analyzed_of_ok h with
  | root clear stored resolving => exact resolve_none resolving
  | @lesson entry _ s₁ s₂ _ p others kept _ lits marked clear stored resolving holds replaced _ _
      cleared _ _ =>
      have k₀ : s.Kin (s.log (.analyze entry.place s.level)) := kin_log rfl _
      have ends : Resolved g s₁ p others :=
        (resolve_resolved (k₀.footing b) rejects clear resolving).2
      obtain ⟨-, -, listed⟩ := replaceUnreliable_admissible replaced
      have marks : (s₂.countLiterals lits.size kept.length).Listed marked.toList :=
        listed ends.marked
      exact marks.clear cleared

end Cdcl.Solver
