import Cdcl.Solver.Backtrack
import Cdcl.Proofs.Order

/-!
# What covers the variables

The maps of a solver cover exactly its variables.  `Order.Spans n` says so of the maps of
the decision order, with two conditions more: the heap holds variables only, and the
number of the variables that may be decided is counted right.

* `spans_offer`, `spans_setEligible`, `spans_addVar`, `spans_bump`, `spans_release`,
  `spans_rebuild`, `spans_pickBy` — the operations of the order keep this.
-/

namespace Cdcl

namespace Order

/-- The maps cover the first `n` variables, the heap holds some of these, and those that
may be decided are counted. -/
structure Spans (o : Order) (n : Nat) : Prop where
  activity : o.activity.size = n
  phase : o.phase.size = n
  preferred : o.preferred.size = n
  eligible : o.eligible.size = n
  heap : ∃ m, o.heap.Holds m ∧ ∀ v, m v → v.index < n
  count : o.eligibleCount = o.eligible.cells.toList.count true

variable {o o' : Order} {n : Nat} {v : Var} {t : Trail}

namespace Spans

theorem reheap {heap : Heap Var} {m : Var → Prop} (s : o.Spans n) (holds : heap.Holds m)
    (low : ∀ v, m v → v.index < n) : { o with heap }.Spans n :=
  ⟨s.activity, s.phase, s.preferred, s.eligible, ⟨m, holds, low⟩, s.count⟩

theorem index_lt (s : o.Spans n) {i : Nat} (there : o.heap.keys[i]? = some v) : v.index < n := by
  obtain ⟨m, holds, low⟩ := s.heap
  exact low v ((holds.mem v).mpr ⟨i, there⟩)

theorem reseed (s : o.Spans n) (seed : Float) : { o with seed }.Spans n :=
  ⟨s.activity, s.phase, s.preferred, s.eligible, s.heap, s.count⟩

end Spans

theorem spans_empty (seed : Float) : (Order.empty seed).Spans 0 :=
  ⟨rfl, rfl, rfl, rfl, ⟨fun _ => False, Heap.holds_empty fun _ no => no, nofun⟩, rfl⟩

/-- A variable that is offered is one of those covered. -/
theorem spans_offer (s : o.Spans n) (h : o.offer v = .ok o') : o'.Spans n := by
  obtain ⟨may, read, h⟩ := bind_eq_ok.mp h
  split at h
  · obtain ⟨heap, inserted, rfl⟩ := updateHeap_eq_ok.mp h
    obtain ⟨m, holds, low⟩ := s.heap
    have inside : v.index < n := s.eligible ▸ DenseMap.toIndex_lt read
    refine s.reheap (Heap.holds_insert holds inserted) fun u => ?_
    rintro (rfl | old)
    · exact inside
    · exact low u old
  · cases h
    exact s

/-- One flag is set, and the variables of which it is set are counted anew. -/
theorem count_set {flags flags' : Flags Var} {was b : Bool} {count count' : Nat}
    (read : flags.get v = .ok was) (written : flags.set v b = .ok flags')
    (recounted : recount count was b = .ok count')
    (counted : count = flags.cells.toList.count true) :
    count' = flags'.cells.toList.count true := by
  rw [DenseMap.get_eq_ok] at read
  obtain ⟨inside, rfl⟩ := DenseMap.set_eq_ok.mp written
  have here : flags.cells.toList[v.index]? = some was := by
    rw [Array.getElem?_toList]
    exact read
  have low : v.index < flags.cells.toList.length := inside
  have was_eq : flags.cells.toList[v.index] = was := by
    rw [List.getElem?_eq_getElem low] at here
    exact Option.some.inj here
  rw [Array.toList_setIfInBounds, Var.toIndex_eq, List.count_set low, was_eq]
  have positive : was = true → 0 < flags.cells.toList.count true := by
    rintro rfl
    exact List.count_pos_iff.mpr (List.mem_of_getElem? here)
  subst counted
  generalize flags.cells.toList.count true = k at positive recounted ⊢
  cases was with
  | false => cases b <;> simp [recount] at recounted ⊢ <;> omega
  | true =>
      have := positive rfl
      cases b <;> simp [recount, checkedSub_eq_ok] at recounted ⊢ <;> omega

/-- The order with one more variable that may be decided, or one less. -/
theorem Spans.mayDecide {b was : Bool} {eligible : Flags Var} {eligibleCount : Nat}
    (s : o.Spans n) (read : o.eligible.get v = .ok was)
    (recounted : recount o.eligibleCount was b = .ok eligibleCount)
    (written : o.eligible.set v b = .ok eligible) :
    { o with eligible, eligibleCount }.Spans n :=
  ⟨s.activity, s.phase, s.preferred, (DenseMap.size_set written).trans s.eligible, s.heap,
    count_set read written recounted s.count⟩

/-- The variables that may be decided are counted anew. -/
theorem spans_setEligible {b : Bool} (s : o.Spans n) (h : o.setEligible v b = .ok o') :
    o'.Spans n := by
  obtain ⟨was, read, h⟩ := bind_eq_ok.mp h
  obtain ⟨count, recounted, h⟩ := bind_eq_ok.mp h
  obtain ⟨eligible, written, h⟩ := bind_eq_ok.mp h
  exact spans_offer (s.mayDecide read recounted written) h

/-- The order with room for a new variable, which may not be decided yet. -/
theorem Spans.extend {start seed : Float} {preferred : Truth} (s : o.Spans n)
    (fresh : v.index = n) :
    { o with
      seed
      activity := o.activity.insert v 0.0 start
      phase := o.phase.insert v false false
      preferred := o.preferred.insert v .unknown preferred
      eligible := o.eligible.reserve v false }.Spans (n + 1) := by
  have grown : ∀ {k : Nat}, k = n → max k (DenseKey.toIndex v + 1) = n + 1 := fun {k} same => by
    rw [same, Var.toIndex_eq, fresh]
    exact Nat.max_eq_right (Nat.le_succ n)
  have padded : (o.eligible.reserve v false).cells.toList.count true =
      o.eligible.cells.toList.count true := by
    unfold DenseMap.reserve
    split
    · rfl
    · simp [List.count_replicate]
  refine ⟨?_, ?_, ?_, ?_, ?_, ?_⟩
  · exact (DenseMap.size_insert ..).trans (grown s.activity)
  · exact (DenseMap.size_insert ..).trans (grown s.phase)
  · exact (DenseMap.size_insert ..).trans (grown s.preferred)
  · exact (DenseMap.size_reserve ..).trans (grown s.eligible)
  · obtain ⟨m, holds, low⟩ := s.heap
    exact ⟨m, holds, fun u old => Nat.lt_succ_of_lt (low u old)⟩
  · exact s.count.trans padded.symm

theorem spans_addVar {random eligible : Bool} {preferred : Truth} (s : o.Spans n)
    (fresh : v.index = n) (h : o.addVar v random preferred eligible = .ok o') :
    o'.Spans (n + 1) := by
  unfold addVar at h
  split at h
  exact spans_setEligible (s.extend fresh) h

/-- The order with other activities. -/
theorem Spans.weigh {activity : DenseMap Var Float} {increment : Float} (s : o.Spans n)
    (size : activity.size = n) : { o with activity, increment }.Spans n :=
  ⟨size, s.phase, s.preferred, s.eligible, s.heap, s.count⟩

/-- Making a variable more active changes activities, and where it stands in the heap. -/
theorem spans_bump (s : o.Spans n) (h : o.bump v = .ok o') : o'.Spans n := by
  unfold bump at h
  obtain ⟨x, -, h⟩ := bind_eq_ok.mp h
  obtain ⟨activity, written, h⟩ := bind_eq_ok.mp h
  have size : activity.size = n := (DenseMap.size_set written).trans s.activity
  have risen : ∀ {o₁ : Order}, o₁.Spans n →
      (if o₁.heap.contains v then o₁.updateHeap fun less heap => heap.rise less v
        else pure o₁) = .ok o' → o'.Spans n := by
    intro o₁ s₁ h
    split at h
    · obtain ⟨heap, risen, rfl⟩ := updateHeap_eq_ok.mp h
      obtain ⟨m, holds, low⟩ := s₁.heap
      exact s₁.reheap (Heap.holds_rise holds risen) low
    · cases h
      exact s₁
  split at h
  · exact risen (s.weigh ((DenseMap.size_mapWithKey ..).trans size)) h
  · exact risen (s.weigh size) h

theorem spans_decay (s : o.Spans n) (rate : Float) : (o.decay rate).Spans n :=
  ⟨s.activity, s.phase, s.preferred, s.eligible, s.heap, s.count⟩

theorem spans_savePhase {p : Lit} (s : o.Spans n) (h : o.savePhase p = .ok o') :
    o'.Spans n := by
  obtain ⟨phase, written, h⟩ := bind_eq_ok.mp h
  cases h
  exact ⟨s.activity, (DenseMap.size_set written).trans s.phase, s.preferred, s.eligible, s.heap,
    s.count⟩

/-- A variable that is given back is one of those covered. -/
theorem spans_release {save : Bool} {p : Lit} (s : o.Spans n)
    (h : o.release save p = .ok o') : o'.Spans n := by
  unfold release at h
  split at h
  · obtain ⟨o₁, saved, h⟩ := bind_eq_ok.mp h
    exact spans_offer (spans_savePhase s saved) h
  · exact spans_offer s h

/-- Variables chosen among the first `m` ones are different, and they are among these. -/
theorem chosen_below {ok : Var → Except Fault Bool} {m : Nat} {free : List Var}
    (listed : ((List.range m).map Var.mk).filterM ok = .ok free) :
    free.Nodup ∧ ∀ v ∈ free, v.index < m := by
  obtain ⟨sub, -, -⟩ := filterM_eq_ok listed
  refine ⟨?_, fun v inside => ?_⟩
  · apply List.Nodup.sublist sub
    exact (List.nodup_range).map fun _ _ same => congrArg Var.index same
  · obtain ⟨i, low, rfl⟩ := List.mem_map.mp (sub.subset inside)
    exact List.mem_range.mp low

/-- The heap is refilled with variables that are covered. -/
theorem spans_rebuild (s : o.Spans n) (vars : t.numVars = n) (h : o.rebuild t = .ok o') :
    o'.Spans n := by
  obtain ⟨free, listed, h⟩ := bind_eq_ok.mp h
  obtain ⟨heap, built, rfl⟩ := updateHeap_eq_ok.mp h
  obtain ⟨once, low⟩ := chosen_below listed
  obtain ⟨m, holds, -⟩ := s.heap
  exact s.reheap (Heap.holds_build holds once built) fun v inside => vars ▸ low v inside

/-- Taking the top off leaves variables that are covered, and so is the top. -/
theorem spans_pop {top : Option Var} (s : o.Spans n) (h : o.pop = .ok (o', top)) :
    o'.Spans n ∧ ∀ v, top = some v → v.index < n := by
  obtain ⟨heap, taken, rfl⟩ := pop_eq_ok.mp h
  obtain ⟨m, holds, low⟩ := s.heap
  obtain ⟨some_, none_⟩ := Heap.holds_pop holds taken
  cases top with
  | none =>
      obtain ⟨rfl, -⟩ := none_ rfl
      exact ⟨s, nofun⟩
  | some v =>
      obtain ⟨mem, holds', -⟩ := some_ v rfl
      refine ⟨s.reheap holds' fun u inside => low u inside.1, ?_⟩
      rintro _ ⟨⟩
      exact low v mem

/-- By induction, so does taking several off. -/
theorem spans_popFree {k : Nat} {choice : Option Var} (s : o.Spans n)
    (h : popFree t k o = .ok (o', choice)) : o'.Spans n := by
  induction k generalizing o with
  | zero =>
      cases h
      exact s
  | succ k ih =>
      obtain ⟨⟨o₁, top⟩, popped, h⟩ := bind_eq_ok.mp h
      obtain ⟨s₁, -⟩ := spans_pop s popped
      cases top with
      | none =>
          cases h
          exact s₁
      | some v =>
          obtain ⟨free, -, h⟩ := bind_eq_ok.mp h
          split at h
          · cases h
            exact s₁
          · exact ih s₁ h

theorem spans_pickVarBy {r : Generator} {frequency : Float} {choice : Option Var} {random : Bool}
    (s : o.Spans n) (h : o.pickVarBy r t frequency = .ok (o', choice, random)) : o'.Spans n := by
  obtain ⟨⟨o₁, drawn⟩, drawing, h⟩ := bind_eq_ok.mp h
  obtain ⟨⟨seed, rfl⟩, -⟩ := pickRandomBy_eq_ok drawing
  cases drawn with
  | some v =>
      cases h
      exact s.reseed seed
  | none =>
      obtain ⟨⟨o₂, choice₂⟩, popped, h⟩ := bind_eq_ok.mp h
      cases h
      exact spans_popFree (s.reseed seed) popped

/-- Picking a decision takes variables out of the heap, and may draw random numbers. -/
theorem spans_pickBy {r : Generator} {frequency : Float} {polarity random : Bool}
    {choice : Option Lit} (s : o.Spans n)
    (h : o.pickBy r t frequency polarity = .ok (o', choice, random)) : o'.Spans n := by
  obtain ⟨⟨o₁, picked, random₁⟩, picking, h⟩ := bind_eq_ok.mp h
  have s₁ := spans_pickVarBy s picking
  cases picked with
  | none =>
      cases h
      exact s₁
  | some v =>
      obtain ⟨⟨o₂, sign⟩, chosen, h⟩ := bind_eq_ok.mp h
      cases h
      obtain ⟨seed, rfl⟩ := chooseSignBy_eq_ok chosen
      exact s₁.reseed seed

end Order

end Cdcl
