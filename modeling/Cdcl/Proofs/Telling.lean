import Cdcl.Proofs.Rehearsing
import Cdcl.Proofs.Success.Inserting
import Cdcl.Proofs.Twins

/-!
# What has been logged, and the set of literals of a clause

Two things that adding a clause does not depend on.  Nothing that has been logged is read
again, so solvers that have logged different messages do the same and fail alike.  And a
clause is sorted and rid of repetitions before anything is done with it, so its literals
count as a set.

* `Abreast` — two computations that fail with the same fault, or succeed with related
  answers, with a rule for each way to put computations together;
* `Network.Retold`, `Solver.Retold` — the same but for the messages, which every operation
  keeps: `Network.Retold.propagate`, `Network.Retold.addClause`, `Solver.Retold.cancelUntil`;
* `normalize_congr` — what is kept of a clause depends on the set of its literals;
* `Reaches.addClause_members` — so does everything that adding it does, except the message
  that says which clause was given.
-/

namespace Cdcl

/-! ## Computations side by side -/

section

variable {α β γ δ ε : Type}

/-- The computations fail with the same fault, or they succeed with related answers. -/
inductive Abreast (R : α → β → Prop) : Except Fault α → Except Fault β → Prop
  | ok {a : α} {b : β} : R a b → Abreast R (.ok a) (.ok b)
  | error (e : Fault) : Abreast R (.error e) (.error e)

namespace Abreast

variable {R : α → β → Prop} {S : δ → ε → Prop} {x : Except Fault δ} {y : Except Fault ε}
  {f : δ → Except Fault α} {g : ε → Except Fault β}

theorem bind (first : Abreast S x y) (next : ∀ a b, S a b → Abreast R (f a) (g b)) :
    Abreast R (x >>= f) (y >>= g) := by
  cases first with
  | ok related => exact next _ _ related
  | error e => exact .error e

/-- A step that answers with more than the states. -/
theorem step {x : Except Fault (δ × γ)} {y : Except Fault (ε × γ)}
    {f : δ × γ → Except Fault α} {g : ε × γ → Except Fault β} (first : Abreast (Beside S) x y)
    (next : ∀ a b c, S a b → Abreast R (f (a, c)) (g (b, c))) :
    Abreast R (x >>= f) (y >>= g) := by
  refine bind first fun ⟨a, c⟩ ⟨b, d⟩ both => ?_
  obtain ⟨related, same⟩ := both
  cases same
  exact next a b c related

/-- A step that is the same in both. -/
theorem same {g : δ → Except Fault β} (next : ∀ a, Abreast R (f a) (g a)) :
    Abreast R (x >>= f) (x >>= g) := by
  cases x with
  | ok a => exact next a
  | error e => exact .error e

theorem ite {c : Prop} [Decidable c] {x x' : Except Fault α} {y y' : Except Fault β}
    (yes : Abreast R x y) (no : Abreast R x' y') :
    Abreast R (if c then x else x') (if c then y else y') := by
  split
  · exact yes
  · exact no

theorem map_eq {x : Except Fault α} {y : Except Fault β} {f : α → γ} {g : β → γ}
    (h : Abreast R x y) (equal : ∀ a b, R a b → g b = f a) : y.map g = x.map f := by
  cases h with
  | ok related => exact congrArg Except.ok (equal _ _ related)
  | error e => rfl

end Abreast

end

/-! ## What has been logged -/

/-- The journal without its messages. -/
def Journal.hushed (j : Journal) : Journal := { j with messages := #[] }

/-- A message is not among what is compared. -/
theorem Journal.hushed_log (j : Journal) (m : Message) : (j.log m).hushed = j.hushed := by
  unfold log
  split
  · split <;> rfl
  · rfl

/-- What the observer is told is compared. -/
theorem Journal.hushed_notify {i j : Journal} (l : Lit) (h : j.hushed = i.hushed) :
    (j.notify l).hushed = (i.notify l).hushed :=
  congrArg (·.notify l) h

namespace Network

/-- The networks differ in the messages that have been logged only. -/
inductive Retold (n : Network) : Network → Prop
  | mk {journal : Journal} : journal.hushed = n.journal.hushed → Retold n { n with journal }

namespace Retold

variable {n m : Network} {l p : Lit} {w : Watcher} {r : Reason} {id : ClauseId}

theorem refl (n : Network) : n.Retold n := .mk rfl

/-- The networks may log what they like. -/
theorem log (t : n.Retold m) (x y : Message) : (n.log x).Retold (m.log y) := by
  obtain ⟨told⟩ := t
  refine .mk (n := n.log x) ?_
  change (Journal.log _ y).hushed = (n.journal.log x).hushed
  rw [Journal.hushed_log, Journal.hushed_log, told]

theorem watch (t : n.Retold m) : Abreast Retold (n.watch l w) (m.watch l w) := by
  obtain ⟨told⟩ := t
  exact .same fun watches => .ok (.mk told)

/-- A literal is assigned in both networks, or has a value in both. -/
theorem enqueue (t : n.Retold m) : Abreast Retold (n.enqueue p r) (m.enqueue p r) := by
  obtain ⟨told⟩ := t
  refine .same fun observed => .same fun trail => .ite ?_ ?_
  · exact .ok (.mk (Journal.hushed_notify p told))
  · exact .ok (.mk told)

/-! ### Propagation -/

/-- A visit of a clause ends in the same way, with the same fault if there is one. -/
theorem visit (t : n.Retold m) : Abreast (Beside Retold) (n.visit p w) (m.visit p w) := by
  obtain ⟨told⟩ := t
  refine .same fun blocking => .ite (.ok ⟨.mk told, rfl⟩) ?_
  refine .same fun c => .same fun _ => .same fun firstValue => .ite ?_ (.same fun choice => ?_)
  · exact .same fun arena => .ok ⟨.mk told, rfl⟩
  cases choice with
  | some parts =>
      refine .same fun arena => .same fun _ => ?_
      exact .bind (watch (.mk told)) fun n₁ m₁ t₁ => .ok ⟨t₁, rfl⟩
  | none =>
      refine .same fun arena => .ite (.ok ⟨.mk told, rfl⟩) ?_
      exact .bind (enqueue (.mk told)) fun n₁ m₁ t₁ => .ok ⟨t₁, rfl⟩

/-- By induction along the list of watchers. -/
theorem scan {kept : Array Watcher} {ws : List Watcher} (t : n.Retold m) :
    Abreast (Beside Retold) (n.scan p kept ws) (m.scan p kept ws) := by
  induction ws generalizing n m kept with
  | nil => exact .ok ⟨t, rfl⟩
  | cons w ws ih =>
      refine .step t.visit fun n₁ m₁ v t₁ => ?_
      cases v with
      | keep w' => exact ih t₁
      | moved => exact ih t₁
      | conflict w' => exact .ok ⟨t₁, rfl⟩

theorem visitAll (t : n.Retold m) : Abreast (Beside Retold) (n.visitAll p) (m.visitAll p) := by
  obtain ⟨told⟩ := t
  refine .same fun list => .same fun watches => ?_
  refine .step (scan (.mk told)) fun n₁ m₁ (kept, conflict) ⟨told⟩ => ?_
  exact .same fun rest => .same fun _ => .same fun watches => .ok ⟨.mk told, rfl⟩

/-- By induction over the steps of a propagation. -/
theorem drain {fuel count : Nat} (t : n.Retold m) :
    Abreast (Beside Retold) (Network.drain fuel n count) (Network.drain fuel m count) := by
  induction fuel generalizing n m count with
  | zero =>
      obtain ⟨told⟩ := t
      unfold Network.drain
      dsimp only
      split
      · exact .ok ⟨.mk told, rfl⟩
      · exact .error _
  | succ fuel ih =>
      obtain ⟨told⟩ := t
      unfold Network.drain
      dsimp only
      split
      · exact .ok ⟨.mk told, rfl⟩
      next p _ =>
        refine .step (visitAll (.mk told)) fun n₁ m₁ conflict t₁ => ?_
        cases conflict with
        | none => exact ih t₁
        | some id =>
            obtain ⟨told⟩ := t₁
            exact .ok ⟨.mk told, rfl⟩

/-- Propagation looks at no message. -/
theorem propagate (t : n.Retold m) : Abreast (Beside Retold) n.propagate m.propagate := by
  obtain ⟨told⟩ := t
  exact drain (.mk told)

/-! ### Storing a clause -/

theorem retally {learnt : Bool} {f : Tally → Except Fault Tally} (t : n.Retold m) :
    Abreast Retold (n.retally learnt f) (m.retally learnt f) := by
  obtain ⟨told⟩ := t
  exact .ite (.same fun tally => .ok (.mk told)) (.same fun tally => .ok (.mk told))

theorem attach (t : n.Retold m) : Abreast Retold (n.attach id) (m.attach id) := by
  obtain ⟨told⟩ := t
  refine .same fun c => .bind (watch (.mk told)) fun n₁ m₁ t₁ => ?_
  exact .bind t₁.watch fun n₂ m₂ t₂ => t₂.retally

/-- A clause gets the same name in both. -/
theorem addClause {lits : List Lit} (t : n.Retold m) :
    Abreast (Beside Retold) (n.addClause lits false) (m.addClause lits false) := by
  obtain ⟨told⟩ := t
  refine .same fun c => .same fun (arena, id) => ?_
  exact .bind (attach (.mk told)) fun n₁ m₁ t₁ => .ok ⟨t₁, rfl⟩

end Retold

end Network

namespace Solver

variable {s s' : Solver} {t : Trail} {l : Lit} {k : Nat} {lits kept ls c d : List Lit}

/-- The solver without the messages that it has logged. -/
def hushed (s : Solver) : Solver :=
  { s with net := { s.net with journal := s.net.journal.hushed } }

/-- The solvers differ in the messages that have been logged only. -/
inductive Retold (s : Solver) : Solver → Prop
  | mk {net : Network} : s.net.Retold net → Retold s { s with net }

namespace Retold

theorem hushed (t : s.Retold s') : s'.hushed = s.hushed := by
  obtain ⟨⟨told⟩⟩ := t
  simp only [Solver.hushed, told]

theorem log (t : s.Retold s') (x y : Message) : (s.log x).Retold (s'.log y) := by
  obtain ⟨t⟩ := t
  exact .mk (s := s.log x) (t.log x y)

theorem backtrack (t : s.Retold s') : Abreast Retold (s.backtrack k) (s'.backtrack k) := by
  obtain ⟨⟨told⟩⟩ := t
  refine .same fun cut => .same fun last => .same fun count => ?_
  exact .same fun (trail, order) => .ok (.mk (.mk told))

/-- The message that the solver goes back is the only one. -/
theorem cancelUntil (t : s.Retold s') :
    Abreast Retold (s.cancelUntil k) (s'.cancelUntil k) := by
  have back := (t.log (.cancelUntil k) (.cancelUntil k)).backtrack (k := k)
  obtain ⟨⟨told⟩⟩ := t
  refine .ite ?_ (.ok (.mk (.mk told)))
  exact .bind back fun s₁ s₁' ⟨t₁⟩ => .ok (.mk (s := { s₁ with pending := none }) t₁)

/-- Taking the network out of a solver and putting it back is no more than replacing it. -/
theorem updateNet_eq {f : Network → Except Fault Network} :
    s.updateNet f = (f s.net >>= fun net => .ok { s with net }) := by
  unfold Solver.updateNet
  simp only
  cases f s.net with
  | ok net => rfl
  | error e => rfl

theorem updateNet {f : Network → Except Fault Network} (t : s.Retold s')
    (kept : ∀ {n m}, n.Retold m → Abreast Network.Retold (f n) (f m)) :
    Abreast Retold (s.updateNet f) (s'.updateNet f) := by
  obtain ⟨t⟩ := t
  rw [updateNet_eq, updateNet_eq]
  exact .bind (kept t) fun n m t₁ => .ok (.mk t₁)

theorem propagateAll (t : s.Retold s') :
    Abreast (Beside Retold) s.propagateAll s'.propagateAll := by
  obtain ⟨t⟩ := t
  exact .step t.propagate fun n m (conflict, count) t₁ => .ok ⟨.mk t₁, rfl⟩

/-! ### Adding a clause that has been rid of repetitions -/

/-- A fact leads to the same answer. -/
theorem assertUnit (t : s.Retold s') :
    Abreast (Beside Retold) (s.assertUnit l) (s'.assertUnit l) := by
  refine .bind (t.updateNet fun told => told.enqueue) fun s₁ s₁' t₁ => ?_
  refine .step t₁.propagateAll fun s₂ s₂' conflict ⟨t₂⟩ => ?_
  cases conflict with
  | none => exact .ok ⟨.mk t₂, rfl⟩
  | some id => exact .ok ⟨.mk t₂, rfl⟩

/-- The solvers go back as far, and the clause is stored in both. -/
theorem insertArranged {a b : Ranked} (t : s.Retold s') :
    Abreast Retold (s.insertArranged a b lits) (s'.insertArranged a b lits) := by
  unfold Solver.insertArranged
  split
  · obtain ⟨t⟩ := t
    exact .step t.addClause fun n m id t₁ => .ok (.mk t₁)
  · refine .same fun k => .bind t.cancelUntil fun s₁ s₁' ⟨t₁⟩ => ?_
    exact .step t₁.addClause fun n m id t₂ => .ok (.mk t₂)
  · refine .bind t.cancelUntil fun s₁ s₁' ⟨t₁⟩ => .step t₁.addClause fun n m id ⟨told⟩ => ?_
    exact .same fun c => .bind (Network.Retold.enqueue (.mk told)) fun n m t₂ => .ok (.mk t₂)

end Retold

/-! ## The set of literals of a clause -/

/-- What happens to one literal, once its value at the root level is known. -/
theorem normalizeFrom_cons {value : Truth} (read : t.rootValue l = .ok value)
    (kept ls : List Lit) :
    normalizeFrom t kept (l :: ls) =
      if value = .holds ∨ kept.head? = some (-l) then .ok (.satisfied kept.reverse)
      else if value ≠ .fails ∧ kept.head? ≠ some l then normalizeFrom t (l :: kept) ls
      else normalizeFrom t kept ls := by
  rw [normalizeFrom, read]
  simp only [← Bool.decide_or, ← Bool.decide_and, decide_eq_true_eq]
  rfl

/-- The second of two equal literals changes nothing. -/
theorem normalizeFrom_repeat :
    normalizeFrom t kept (l :: l :: ls) = normalizeFrom t kept (l :: ls) := by
  cases read : t.rootValue l with
  | error e =>
      have fails : ∀ ms, normalizeFrom t kept (l :: ms) = .error e := fun ms => by
        rw [normalizeFrom, read]
        rfl
      rw [fails, fails]
  | ok value =>
      rw [normalizeFrom_cons read kept (l :: ls), normalizeFrom_cons read kept ls]
      by_cases sat : value = .holds ∨ kept.head? = some (-l)
      · rw [if_pos sat, if_pos sat]
      rw [if_neg sat, if_neg sat]
      by_cases new : value ≠ .fails ∧ kept.head? ≠ some l
      · -- it has just been kept, and is not its own negation
        rw [if_pos new, if_pos new, normalizeFrom_cons read, if_neg, if_neg]
        · exact fun again => again.2 rfl
        · rintro (true_ | neg)
          · exact sat (.inl true_)
          · exact Lit.neg_ne l (Option.some.inj neg).symm
      · rw [if_neg new, if_neg new]

/-- Of a sorted clause every literal counts once. -/
theorem normalizeFrom_dedup (sorted : ls.Pairwise Lit.Le) :
    normalizeFrom t kept ls.dedup = normalizeFrom t kept ls := by
  induction ls generalizing kept with
  | nil => rfl
  | cons l ls ih =>
      rw [List.pairwise_cons] at sorted
      obtain ⟨first, later⟩ := sorted
      by_cases again : l ∈ ls
      · rw [List.dedup_cons_of_mem again, ih later]
        obtain ⟨m, ms, rfl⟩ := List.exists_cons_of_ne_nil (List.ne_nil_of_mem again)
        have top : m = l := by
          rcases List.mem_cons.mp again with same | behind
          · exact same.symm
          · exact Std.Antisymm.antisymm _ _ ((List.pairwise_cons.mp later).1 l behind)
              (first m List.mem_cons_self)
        rw [top, normalizeFrom_repeat]
      · rw [List.dedup_cons_of_notMem again]
        unfold normalizeFrom
        simp only [ih later]

/-- What is kept of a clause depends on the set of its literals. -/
theorem normalize_congr (same : ∀ l, l ∈ c ↔ l ∈ d) :
    normalize t (Lit.sort c) = normalize t (Lit.sort d) := by
  have once : (Lit.sort c).dedup = (Lit.sort d).dedup := by
    refine List.Perm.eq_of_pairwise' (r := Lit.Le) ?_ ?_ ?_
    · exact (sort_sorted c).sublist (List.dedup_sublist _)
    · exact (sort_sorted d).sublist (List.dedup_sublist _)
    · refine (List.perm_ext_iff_of_nodup (List.nodup_dedup _) (List.nodup_dedup _)).mpr fun l => ?_
      rw [List.mem_dedup, List.mem_dedup, (sort_perm c).mem_iff, (sort_perm d).mem_iff]
      exact same l
  unfold normalize
  rw [← normalizeFrom_dedup (sort_sorted c), once, normalizeFrom_dedup (sort_sorted d)]

/-- The answers are the same, and the solvers but for what they have logged; the literals
that are left over may differ. -/
def Concur (a b : Solver × Bool × List Lit) : Prop := a.1.Retold b.1 ∧ b.2.1 = a.2.1

/-- If the same is left of two clauses, they are added alike at the root level. -/
theorem Retold.addAtRoot (t : s.Retold s')
    (same : normalize s.net.trail (Lit.sort c) = normalize s.net.trail (Lit.sort d)) :
    Abreast Concur (s.addAtRoot c) (s'.addAtRoot d) := by
  obtain ⟨⟨told⟩⟩ := t
  unfold Solver.addAtRoot
  dsimp only
  rw [same]
  refine .same fun normal => ?_
  split
  · exact .ok ⟨.mk (.mk told), rfl⟩
  · exact .ok ⟨.mk (s := { s with ok := false }) (.mk told), rfl⟩
  · exact .step (assertUnit (.mk (.mk told))) fun s₁ s₁' answer t₁ => .ok ⟨t₁, rfl⟩
  · exact .step (Network.Retold.addClause (.mk told)) fun n m id t₁ => .ok ⟨.mk t₁, rfl⟩

/-- If the same is left of two clauses, they are added alike above the root level. -/
theorem Retold.addAboveRoot (t : s.Retold s')
    (same : normalize s.net.trail (Lit.sort c) = normalize s.net.trail (Lit.sort d)) :
    Abreast Concur (s.addAboveRoot c) (s'.addAboveRoot d) := by
  obtain ⟨⟨told⟩⟩ := t
  unfold Solver.addAboveRoot
  dsimp only
  rw [same]
  refine .same fun normal => ?_
  split
  · exact .ok ⟨.mk (.mk told), rfl⟩
  · exact .ok ⟨.mk (s := { s with ok := false }) (.mk told), rfl⟩
  · refine .bind (cancelUntil (.mk (.mk told))) fun s₁ s₁' t₁ => ?_
    exact .step t₁.assertUnit fun s₂ s₂' answer t₂ => .ok ⟨t₂, rfl⟩
  · refine .same fun ranked => ?_
    split
    · exact .bind (insertArranged (.mk (.mk told))) fun s₁ s₁' t₁ => .ok ⟨t₁, rfl⟩
    · exact .error _

/-- Clauses of the same literals are added alike. -/
theorem Retold.addClauseReporting (t : s.Retold s') (same : ∀ l, l ∈ c ↔ l ∈ d) :
    Abreast Concur (s.addClauseReporting c) (s'.addClauseReporting d) := by
  obtain ⟨⟨told⟩⟩ := t
  have t : s.Retold _ := .mk (.mk told)
  refine .ite (.ok ⟨t, rfl⟩) (.ite ?_ ?_)
  · exact (t.log _ _).addAtRoot (normalize_congr same)
  · exact (t.log _ _).addAboveRoot (normalize_congr same)

/-- In a run, clauses of the same literals are added alike: the answers are the same, and the
states that they lead to, which have told the same events and assignments.  If one of them is
not added, nor is the other, and what is missing is room. -/
theorem Reaches.addClause_members {options : Options} {allowed : Solver → Call → Prop}
    {calls : List Call} (run : Reaches options allowed calls s)
    (known : ∀ l ∈ c, l.var.index < s.numVars) (same : ∀ l, l ∈ c ↔ l ∈ d) :
    (s.addClause d).map (Prod.map hushed id) = (s.addClause c).map (Prod.map hushed id) ∧
      ∀ f, s.addClause c = .error f → f.Excused := by
  constructor
  · have told : s.Retold s := .mk (.refl _)
    have adds : Abreast (Beside Retold) (s.addClause c) (s.addClause d) :=
      .bind (told.addClauseReporting same) fun a b both => .ok both
    exact adds.map_eq fun a b both => Prod.ext both.1.hushed both.2
  · have adds : FailsOnly (·.Excused) (s.addClauseReporting c) :=
      run.failsOnly_addClause (fun _ yes => yes) known
    exact fun f failed => adds.bind (fun _ _ => .ok _) f failed

/-- Two levels. -/
def decidedTwice : List Call :=
  [.newVar {}, .newVar {}, .newVar {}, .decide ⟨⟨0⟩, true⟩, .decide ⟨⟨1⟩, true⟩]

/-- Below the second of two decisions, a clause that rules both of them out takes the second
one back, and implies its negation. -/
theorem repeated_literals_above_decisions : ∃ s s₁ s₂ : Solver,
    Reaches {} (fun _ _ => True) decidedTwice s ∧ s.level = 2 ∧
      s.addClause [⟨⟨0⟩, false⟩, ⟨⟨1⟩, false⟩] = .ok (s₁, true) ∧ s₁.level = 1 ∧
      s₁.litValue ⟨⟨1⟩, false⟩ = .ok .holds ∧
      s.addClause [⟨⟨1⟩, false⟩, ⟨⟨0⟩, false⟩, ⟨⟨1⟩, false⟩] = .ok (s₂, true) ∧
      s₂.hushed = s₁.hushed := by
  have found : ∃ s ∈ (create {} false none).toOption,
      ∃ s' ∈ s.playAll (fun _ _ => True) decidedTwice, s'.numVars = 3 ∧ s'.level = 2 ∧
        ∃ r ∈ (s'.addInOrder [⟨⟨0⟩, false⟩, ⟨⟨1⟩, false⟩]).toOption, r.2.1 = true ∧
          r.1.level = 1 ∧ (r.1.litValue ⟨⟨1⟩, false⟩).toOption = some .holds := by
    decide +kernel
  obtain ⟨s, run, vars, level, ⟨s₁, _, _⟩, added, rfl, back, implied⟩ := exists_played found
  have added := addClause_eq_ok (eq_ok_of_toOption added)
  have alike := (run.addClause_members (d := [⟨⟨1⟩, false⟩, ⟨⟨0⟩, false⟩, ⟨⟨1⟩, false⟩])
    (c := [⟨⟨0⟩, false⟩, ⟨⟨1⟩, false⟩]) (by rw [vars]; decide)
    (by simp only [List.mem_cons, List.not_mem_nil]; tauto)).1
  rw [added] at alike
  cases again : s.addClause [⟨⟨1⟩, false⟩, ⟨⟨0⟩, false⟩, ⟨⟨1⟩, false⟩] with
  | error f =>
      rw [again] at alike
      cases alike
  | ok r =>
      obtain ⟨s₂, b⟩ := r
      rw [again] at alike
      obtain ⟨hushed, answer⟩ := Prod.ext_iff.mp (Except.ok.inj alike)
      cases answer
      exact ⟨s, s₁, s₂, run, level, added, back, eq_ok_of_toOption implied, again, hushed⟩

end Solver

end Cdcl
