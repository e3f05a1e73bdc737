import Cdcl.Order
import Cdcl.Proofs.Faults
import Cdcl.Proofs.Heap
import Cdcl.Proofs.Trail

/-!
# The heap of the decision order

Every variable that may be decided and has no value is in the heap.  `Order.Covers` says
so, with one variable excepted that has just been taken out, or has just lost its value.

* `covers_offer` — offering the excepted variable ends the exception;
* `covers_release` — so it does when a variable loses its value in backtracking;
* `pickVarBy_covers`, `pickBy_covers` — whatever the random numbers are, none is picked only if
  none is left to be decided, and `free_pickBy` — what is picked is.
-/

namespace Cdcl

/-- The heap holds what it says that it contains. -/
theorem Heap.Holds.self {κ : Type} [DenseKey κ] {h : Heap κ} {m : κ → Prop}
    (w : h.Holds m) : h.Holds fun k => h.contains k = true :=
  ⟨w.indexed, fun k => by rw [w.contains_iff, w.mem]⟩

namespace Order

/-- Every variable that may be decided and has no value is in the heap, but perhaps the
missing one. -/
structure Covers (o : Order) (t : Trail) (missing : Option Var) : Prop where
  heap : o.heap.Holds fun v => o.heap.contains v = true
  size : o.eligible.size = t.values.size
  free : ∀ {v}, o.eligible.get v = .ok true → t.values.get v = .ok .unknown →
    missing ≠ some v → o.heap.contains v = true

variable {o o' : Order} {t t' : Trail} {missing : Option Var} {v : Var}

namespace Covers

/-- A heap with more variables covers as much. -/
theorem transfer {m : Var → Prop} (c : o.Covers t missing)
    (eligible : o'.eligible = o.eligible) (heap : o'.heap.Holds m)
    (more : ∀ {v}, o.heap.contains v = true → m v) : o'.Covers t missing where
  heap := heap.self
  size := by rw [eligible, c.size]
  free may unknown other := by
    rw [heap.contains_iff]
    rw [eligible] at may
    exact more (c.free may unknown other)

/-- Nothing that the order looks at has changed. -/
theorem congr (c : o.Covers t missing) (eligible : o'.eligible = o.eligible)
    (heap : o'.heap = o.heap) : o'.Covers t missing :=
  c.transfer eligible (heap ▸ c.heap) id

/-- Fewer variables without a value are easier to cover. -/
theorem anti (c : o.Covers t missing) (size : t'.values.size = t.values.size)
    (unknown : ∀ {v}, missing ≠ some v → t'.values.get v = .ok .unknown →
      t.values.get v = .ok .unknown) : o.Covers t' missing where
  heap := c.heap
  size := c.size.trans size.symm
  free may unknown' other := c.free may (unknown other unknown') other

theorem weaken (c : o.Covers t none) : o.Covers t missing where
  heap := c.heap
  size := c.size
  free may unknown _ := c.free may unknown (by simp)

/-- Assigning literals leaves fewer variables to be covered. -/
theorem grows (c : o.Covers t missing) (g : t.Grows t') : o.Covers t' missing :=
  c.anti g.size fun _ => g.unknown

end Covers

theorem covers_empty (seed : Float) : (Order.empty seed).Covers Trail.empty none where
  heap := by
    have vacant : (Heap.empty : Heap Var).Holds fun _ => False := Heap.holds_empty fun _ no => no
    exact vacant.self
  size := rfl
  free may := absurd (DenseMap.toIndex_lt may) (Nat.not_lt_zero _)

/-! ## Offering variables -/

/-- Offering the missing variable leaves none missing. -/
theorem covers_offer (c : o.Covers t (some v)) (h : o.offer v = .ok o') :
    o'.Covers t none := by
  unfold offer at h
  have others : ∀ {u}, o.eligible.get u = .ok true → t.values.get u = .ok .unknown →
      u = v ∨ o.heap.contains u = true := by
    intro u may unknown
    by_cases same : u = v
    · exact .inl same
    · exact .inr (c.free may unknown fun e => same (Option.some.inj e).symm)
  obtain ⟨may, read, h⟩ := bind_eq_ok.mp h
  split at h
  next wanted =>
    obtain ⟨heap, inserted, rfl⟩ := updateHeap_eq_ok.mp h
    have holds := Heap.holds_insert c.heap inserted
    refine ⟨holds.self, c.size, fun may unknown _ => ?_⟩
    exact holds.contains_iff.mpr (others may unknown)
  next unwanted =>
    cases h
    refine ⟨c.heap, c.size, fun {u} may' unknown _ => ?_⟩
    rcases others may' unknown with rfl | inside
    · cases read.symm.trans may'
      by_contra absent
      exact unwanted (by simpa using absent)
    · exact inside

/-- A variable that may be decided from now on is offered at once. -/
theorem covers_setEligible {b : Bool} (c : o.Covers t none)
    (h : o.setEligible v b = .ok o') : o'.Covers t none := by
  obtain ⟨_, -, h⟩ := bind_eq_ok.mp h
  obtain ⟨_, -, h⟩ := bind_eq_ok.mp h
  obtain ⟨eligible, written, h⟩ := bind_eq_ok.mp h
  refine covers_offer ?_ h
  refine ⟨c.heap, (DenseMap.size_set written).trans c.size, fun {u} may unknown other => ?_⟩
  have ne : u ≠ v := fun same => other (congrArg some same.symm)
  change eligible.get u = _ at may
  rw [DenseMap.get_set written, if_neg ne] at may
  exact c.free may unknown (by simp)

/-- A new variable is offered if it may be decided. -/
theorem covers_addVar {random eligible : Bool} {preferred : Truth} (c : o.Covers t none)
    (fresh : v.index = t.numVars) (h : o.addVar v random preferred eligible = .ok o') :
    o'.Covers (t.addVar v) none := by
  have covers : ∀ {o₁ : Order}, o₁.heap = o.heap → o₁.eligible = o.eligible.reserve v false →
      o₁.Covers (t.addVar v) none := by
    intro o₁ heap eligible₁
    refine ⟨heap ▸ c.heap, ?_, fun {u} may unknown _ => ?_⟩
    · change _ = (t.addVar v).numVars
      rw [eligible₁, DenseMap.size_reserve, Trail.numVars_addVar fresh, c.size,
        Var.toIndex_eq, fresh]
      exact Nat.max_eq_right (Nat.le_succ _)
    · rw [eligible₁, DenseMap.get_reserve] at may
      rcases may with old | ⟨no, -⟩
      · have inside := DenseMap.toIndex_lt old
        have ne : u ≠ v := by
          intro same
          subst same
          rw [c.size, Var.toIndex_eq, fresh] at inside
          exact Nat.lt_irrefl _ inside
        change (t.values.insert v .unknown .unknown).get u = _ at unknown
        rw [DenseMap.get_insert_size fresh, if_neg ne] at unknown
        rw [heap]
        exact c.free old unknown (by simp)
      · cases no
  unfold addVar at h
  split at h
  refine covers_setEligible ?_ h
  exact covers rfl rfl

/-- A variable rises in the heap, which keeps its variables. -/
theorem covers_bump (c : o.Covers t missing) (h : o.bump v = .ok o') :
    o'.Covers t missing := by
  unfold bump at h
  obtain ⟨x, -, h⟩ := bind_eq_ok.mp h
  obtain ⟨activity, -, h⟩ := bind_eq_ok.mp h
  have covers : ∀ {o₁ : Order}, o₁.heap = o.heap → o₁.eligible = o.eligible →
      (if o₁.heap.contains v then o₁.updateHeap fun less heap => heap.rise less v
        else pure o₁) = .ok o' → o'.Covers t missing := by
    intro o₁ heap eligible h
    have c₁ : o₁.Covers t missing := c.congr eligible heap
    split at h
    · obtain ⟨heap', risen, rfl⟩ := updateHeap_eq_ok.mp h
      exact c₁.transfer rfl (Heap.holds_rise c₁.heap risen) id
    · cases h
      exact c₁
  split at h
  · refine covers ?_ ?_ h <;> rfl
  · refine covers ?_ ?_ h <;> rfl

/-- A variable that loses its value is given back to the heap. -/
theorem covers_release {save : Bool} {p : Lit} (c : o.Covers t (some p.var))
    (h : o.release save p = .ok o') : o'.Covers t none := by
  unfold release at h
  split at h
  · obtain ⟨o₁, saved, h⟩ := bind_eq_ok.mp h
    obtain ⟨phase, -, saved⟩ := bind_eq_ok.mp saved
    cases saved
    refine covers_offer ?_ h
    exact c.congr rfl rfl
  · exact covers_offer c h

/-- Offering a variable does not change which may be decided. -/
theorem eligible_offer (h : o.offer v = .ok o') : o'.eligible = o.eligible := by
  obtain ⟨_, -, h⟩ := bind_eq_ok.mp h
  split at h
  · obtain ⟨heap, -, rfl⟩ := updateHeap_eq_ok.mp h
    rfl
  · cases h
    rfl

theorem eligible_release {save : Bool} {p : Lit} (h : o.release save p = .ok o') :
    o'.eligible = o.eligible := by
  unfold release at h
  split at h
  · obtain ⟨o₁, saved, h⟩ := bind_eq_ok.mp h
    obtain ⟨phase, -, saved⟩ := bind_eq_ok.mp saved
    cases saved
    have same := eligible_offer h
    exact same
  · exact eligible_offer h

/-- Refilling the heap makes it hold exactly what may be decided. -/
theorem holds_rebuild (c : o.Covers t missing) (h : o.rebuild t = .ok o') :
    o'.eligible = o.eligible ∧
      o'.heap.Holds fun v => o.eligible.get v = .ok true ∧ t.value v = .ok .unknown := by
  obtain ⟨free, listed, h⟩ := bind_eq_ok.mp h
  obtain ⟨heap, built, rfl⟩ := updateHeap_eq_ok.mp h
  obtain ⟨sub, mem, -⟩ := filterM_eq_ok listed
  have once : free.Nodup := by
    apply List.Nodup.sublist sub
    exact (List.nodup_range).map fun _ _ same => congrArg Var.index same
  have holds := Heap.holds_build c.heap once built
  refine ⟨rfl, holds.indexed, fun v => Iff.trans ?_ (holds.mem v)⟩
  rw [mem]
  constructor
  · rintro ⟨may, unknown⟩
    have inside : v.index < t.numVars := DenseMap.toIndex_lt unknown
    refine ⟨List.mem_map.mpr ⟨v.index, List.mem_range.mpr inside, rfl⟩, ?_⟩
    simp [may, unknown, Bind.bind, Except.bind, Pure.pure, Except.pure]
  · rintro ⟨-, picked⟩
    obtain ⟨may, eligible, picked⟩ := bind_eq_ok.mp picked
    cases may with
    | false => cases picked
    | true =>
        obtain ⟨x, value, picked⟩ := bind_eq_ok.mp picked
        have unknown : x = .unknown := by simpa using Except.ok.inj picked
        exact ⟨eligible, unknown ▸ value⟩

/-- A heap that has been refilled covers all variables that are free. -/
theorem covers_rebuild (c : o.Covers t missing) (h : o.rebuild t = .ok o') :
    o'.Covers t none := by
  obtain ⟨same, holds⟩ := holds_rebuild c h
  refine ⟨holds.self, same ▸ c.size, fun {v} may unknown _ => ?_⟩
  rw [same] at may
  exact holds.contains_iff.mpr ⟨may, unknown⟩

/-! ## Picking a variable -/

/-- Taking the top off changes the heap only. -/
theorem pop_eq_ok {top : Option Var} : o.pop = .ok (o', top) ↔
    ∃ heap, o.heap.pop (before o.activity) = .ok (heap, top) ∧ o' = { o with heap } := by
  unfold pop
  simp only
  split
  next h => simp [h, eq_comm, and_comm]
  next h => simp [h]

/-- The test of a free variable looks up its value and whether it may be decided. -/
theorem isFree_eq_ok {b : Bool} (h : o.isFree t v = .ok b) :
    b = true ↔ t.values.get v = .ok .unknown ∧ o.eligible.get v = .ok true := by
  obtain ⟨x, read, h⟩ := bind_eq_ok.mp h
  change t.values.get v = .ok x at read
  split at h
  next same =>
    subst same
    simp [read, h]
  next known =>
    cases h
    simp [read, known]

/-- The variable may be decided and has no value. -/
structure Free (o : Order) (t : Trail) (v : Var) : Prop where
  eligible : o.eligible.get v = .ok true
  unknown : t.values.get v = .ok .unknown

theorem Free.congr (f : o'.Free t v) (eligible : o'.eligible = o.eligible) : o.Free t v :=
  ⟨eligible ▸ f.eligible, f.unknown⟩

theorem free_isFree (h : o.isFree t v = .ok true) : o.Free t v :=
  have ⟨unknown, eligible⟩ := (isFree_eq_ok h).mp rfl
  ⟨eligible, unknown⟩

/-- The variable that comes up is free, by induction over those that are passed over. -/
theorem free_popFree {n : Nat} (h : popFree t n o = .ok (o', some v)) : o.Free t v := by
  induction n generalizing o with
  | zero => cases h
  | succ n ih =>
      obtain ⟨⟨o₁, top⟩, popped, h⟩ := bind_eq_ok.mp h
      obtain ⟨heap, -, rfl⟩ := pop_eq_ok.mp popped
      cases top with
      | none => cases h
      | some u =>
          obtain ⟨free, tested, h⟩ := bind_eq_ok.mp h
          cases free with
          | true =>
              cases h
              exact (free_isFree tested).congr rfl
          | false => exact (ih h).congr rfl

/-- The variable that comes up is the one that the heap no longer covers; if none comes
up, none is left to be decided. -/
theorem popFree_covers {n : Nat} {choice : Option Var} (c : o.Covers t none)
    (size : o.heap.keys.size ≤ n) (h : popFree t n o = .ok (o', choice)) :
    o'.Covers t choice ∧ o'.eligible = o.eligible ∧ (choice = none →
      ∀ {v}, o.eligible.get v = .ok true → t.values.get v ≠ .ok .unknown) := by
  induction n generalizing o with
  | zero =>
      cases h
      refine ⟨c, rfl, fun _ v may unknown => ?_⟩
      obtain ⟨i, there⟩ := (c.heap.mem v).mp (c.free may unknown (by simp))
      have inside := (Array.getElem?_eq_some_iff.mp there).1
      omega
  | succ n ih =>
      obtain ⟨⟨o₁, top⟩, popped, h⟩ := bind_eq_ok.mp h
      obtain ⟨heap, taken, rfl⟩ := pop_eq_ok.mp popped
      obtain ⟨some_, none_⟩ := Heap.holds_pop c.heap taken
      cases top with
      | none =>
          cases h
          obtain ⟨rfl, vacant⟩ := none_ rfl
          refine ⟨c, rfl, fun _ v may unknown => ?_⟩
          exact vacant v (c.free may unknown (by simp))
      | some v =>
          obtain ⟨member, holds, smaller⟩ := some_ v rfl
          obtain ⟨free, read, h⟩ := bind_eq_ok.mp h
          have free_iff := isFree_eq_ok read
          split at h
          next =>
            cases h
            refine ⟨⟨holds.self, c.size, fun {u} may unknown other => ?_⟩, rfl, by simp⟩
            rw [holds.contains_iff]
            exact ⟨c.free may unknown (by simp), fun e => other (congrArg some e.symm)⟩
          next occupied =>
            have covers : Covers { o with heap } t none := by
              refine ⟨holds.self, c.size, fun {u} may unknown _ => ?_⟩
              rw [holds.contains_iff]
              refine ⟨c.free may unknown (by simp), ?_⟩
              intro same
              subst same
              exact occupied (free_iff.mpr ⟨unknown, may⟩)
            have le : heap.keys.size ≤ n := by omega
            have rest := ih covers le h
            exact rest

section Draw

variable {r : Generator} {frequency : Float} {polarity random : Bool}

/-- Drawing a variable changes the seed only. -/
theorem randomVarBy_eq_ok (h : o.randomVarBy r = .ok (o', v)) :
    (∃ seed, o' = { o with seed }) ∧ ∃ i : Nat, o.heap.keys[i]? = some v := by
  unfold randomVarBy at h
  simp only at h
  split at h
  · obtain ⟨u, read, h⟩ := bind_eq_ok.mp h
    cases h
    exact ⟨⟨_, rfl⟩, _, Heap.key_eq_ok.mp read⟩
  · cases h

/-- A random pick changes the seed only, and answers with a free variable. -/
theorem pickRandomBy_eq_ok {choice : Option Var}
    (h : o.pickRandomBy r t frequency = .ok (o', choice)) :
    (∃ seed, o' = { o with seed }) ∧ ∀ v, choice = some v → o.Free t v := by
  unfold pickRandomBy at h
  simp only at h
  split at h
  · obtain ⟨⟨o₁, u⟩, drawn, h⟩ := bind_eq_ok.mp h
    obtain ⟨⟨seed, rfl⟩, -⟩ := randomVarBy_eq_ok drawn
    obtain ⟨free, tested, h⟩ := bind_eq_ok.mp h
    cases free with
    | true =>
        cases h
        refine ⟨⟨_, rfl⟩, ?_⟩
        rintro _ ⟨⟩
        exact (free_isFree tested).congr rfl
    | false =>
        cases h
        exact ⟨⟨_, rfl⟩, nofun⟩
  · cases h
    exact ⟨⟨_, rfl⟩, nofun⟩

/-- Choosing a sign changes the seed only. -/
theorem chooseSignBy_eq_ok {sign : Bool} (h : o.chooseSignBy r v polarity = .ok (o', sign)) :
    ∃ seed, o' = { o with seed } := by
  obtain ⟨preferred, -, h⟩ := bind_eq_ok.mp h
  split at h
  · cases h
    exact ⟨_, rfl⟩
  · cases h
    exact ⟨_, rfl⟩
  · split at h
    · cases h
      exact ⟨_, rfl⟩
    · obtain ⟨_, -, h⟩ := bind_eq_ok.mp h
      cases h
      exact ⟨_, rfl⟩

/-- A variable that is picked may be decided and has no value. -/
theorem free_pickVarBy (h : o.pickVarBy r t frequency = .ok (o', some v, random)) :
    o.Free t v := by
  obtain ⟨⟨o₁, drawn⟩, drawing, h⟩ := bind_eq_ok.mp h
  obtain ⟨⟨seed, rfl⟩, free⟩ := pickRandomBy_eq_ok drawing
  cases drawn with
  | some u =>
      cases h
      exact free v rfl
  | none =>
      obtain ⟨⟨o₂, choice⟩, popped, h⟩ := bind_eq_ok.mp h
      cases h
      exact (free_popFree popped).congr rfl

/-- A literal that is picked is of a free variable. -/
theorem free_pickBy {l : Lit} (h : o.pickBy r t frequency polarity = .ok (o', some l, random)) :
    o.Free t l.var := by
  obtain ⟨⟨o₁, picked, random₁⟩, picking, h⟩ := bind_eq_ok.mp h
  cases picked with
  | none => cases h
  | some v =>
      obtain ⟨⟨o₂, sign⟩, -, h⟩ := bind_eq_ok.mp h
      cases h
      exact free_pickVarBy picking

/-- If no variable is picked, every variable that may be decided has a value. -/
theorem pickVarBy_covers {choice : Option Var} (c : o.Covers t none)
    (h : o.pickVarBy r t frequency = .ok (o', choice, random)) :
    o'.Covers t choice ∧ o'.eligible = o.eligible ∧ (choice = none → ∀ v, ¬o.Free t v) := by
  obtain ⟨⟨o₁, drawn⟩, drawing, h⟩ := bind_eq_ok.mp h
  obtain ⟨⟨seed, rfl⟩, -⟩ := pickRandomBy_eq_ok drawing
  have c₁ : Covers { o with seed } t none := c.congr rfl rfl
  cases drawn with
  | some v =>
      cases h
      exact ⟨c₁.weaken, rfl, nofun⟩
  | none =>
      obtain ⟨⟨o₂, choice₂⟩, popped, h⟩ := bind_eq_ok.mp h
      cases h
      obtain ⟨c₂, same, done⟩ := popFree_covers c₁ (Nat.le_refl _) popped
      exact ⟨c₂, same, fun e v free => done e free.eligible free.unknown⟩

/-- If no decision is picked, every variable that may be decided has a value. -/
theorem pickBy_covers {choice : Option Lit} (c : o.Covers t none)
    (h : o.pickBy r t frequency polarity = .ok (o', choice, random)) :
    o'.Covers t (choice.map Lit.var) ∧ o'.eligible = o.eligible ∧
      (choice = none → ∀ v, ¬o.Free t v) := by
  obtain ⟨⟨o₁, picked, random₁⟩, picking, h⟩ := bind_eq_ok.mp h
  obtain ⟨c₁, same, done⟩ := pickVarBy_covers c picking
  cases picked with
  | none =>
      cases h
      exact ⟨c₁, same, fun _ => done rfl⟩
  | some v =>
      obtain ⟨⟨o₂, sign⟩, chosen, h⟩ := bind_eq_ok.mp h
      cases h
      obtain ⟨seed, rfl⟩ := chooseSignBy_eq_ok chosen
      exact ⟨c₁.congr rfl rfl, same, nofun⟩

end Draw

end Order

end Cdcl
