import Cdcl.Proofs.Success.Heap

/-!
# Heaps that serve requests

A heap is asked to insert a key that it lacks, to let one of its keys rise, to give up its
top key, or to start again from keys that are all different.  Each request comes with a
comparison of its own.  Nothing is asked of the comparisons: they need not be transitive,
and they need not agree with one another, so the order of the keys may come to mean
nothing.  The recorded positions are exact nevertheless.

* `Request.serve`, `remaining` — what a request does, and which keys the requests leave;
* `holds_serve`, `Runs.holds` — the heap has the keys that remain, each of them once;
* `gives_siftUp`, `gives_sink` — a key that moves changes places with others;
* `Runs.positions_exact` — the position of each key, after any requests.
-/

namespace Cdcl.Heap

variable {κ : Type}

/-- What a heap is asked to do. -/
inductive Request (κ : Type) where
  | insert (k : κ)
  | rise (k : κ)
  | pop
  | build (ks : List κ)

namespace Request

/-- The keys that come together in a heap that has those of `l`. -/
def pool (l : List κ) : Request κ → List κ
  | insert k => k :: l
  | rise _ | pop => l
  | build ks => ks

/-- What is promised to a heap that has the keys of `l`. -/
def Legal (l : List κ) : Request κ → Prop
  | insert k => k ∉ l
  | rise k => k ∈ l
  | pop => True
  | build ks => ks.Nodup

instance [DecidableEq κ] (l : List κ) : (r : Request κ) → Decidable (r.Legal l)
  | insert k => inferInstanceAs (Decidable (k ∉ l))
  | rise k => inferInstanceAs (Decidable (k ∈ l))
  | pop => inferInstanceAs (Decidable True)
  | build ks => inferInstanceAs (Decidable ks.Nodup)

/-- Does what is asked, and answers with the key taken out, if there is one. -/
def serve [DenseKey κ] (less : Less κ) (h : Heap κ) :
    Request κ → Except Fault (Heap κ × Option κ)
  | insert k => do return (← h.insert less k, none)
  | rise k => do return (← h.rise less k, none)
  | pop => h.pop less
  | build ks => do return (← h.build less ks, none)

/-- The keys that a request leaves in a heap that has those of `l`. -/
def leaves [DecidableEq κ] (l : List κ) (r : Request κ) (answer : Option κ) : List κ :=
  (r.pool l).filter (answer ≠ some ·)

end Request

/-- The keys that were inserted or built and not taken out since.  The latest request
stands first, each with its answer. -/
def remaining [DecidableEq κ] : List (Request κ × Option κ) → List κ
  | [] => []
  | (r, answer) :: past => r.leaves (remaining past) answer

/-- The heap after requests with the given answers. -/
inductive Runs [DenseKey κ] [DecidableEq κ] : List (Request κ × Option κ) → Heap κ → Prop
  | empty : Runs [] .empty
  | serve {past : List (Request κ × Option κ)} {h h' : Heap κ} {r : Request κ}
      {answer : Option κ} (less : Less κ) : Runs past h → r.Legal (remaining past) →
      r.serve less h = .ok (h', answer) → Runs ((r, answer) :: past) h'

variable [DenseKey κ] [DecidableEq κ] {less : Less κ} {h h' : Heap κ} {l : List κ}
  {r : Request κ} {answer : Option κ} {m m' : κ → Prop} {i : Nat} {k : κ}
  {e : Fault → Prop} {past : List (Request κ × Option κ)}

/-! ## One request -/

omit [DenseKey κ] in
theorem Request.mem_leaves : k ∈ r.leaves l answer ↔ k ∈ r.pool l ∧ answer ≠ some k := by
  unfold leaves
  simp

omit [DenseKey κ] in
theorem Request.nodup_leaves (once : l.Nodup) (legal : r.Legal l) :
    (r.leaves l answer).Nodup := by
  refine List.Nodup.filter _ ?_
  cases r with
  | insert k => exact List.nodup_cons.mpr ⟨legal, once⟩
  | rise k => exact once
  | pop => exact once
  | build ks => exact legal

omit [DecidableEq κ] in
theorem Holds.congr (w : h.Holds m) (same : ∀ k, m' k ↔ m k) : h.Holds m' where
  indexed := w.indexed
  mem k := (same k).trans (w.mem k)

omit [DecidableEq κ] in
theorem Indexed.holds (w : h.Indexed) : h.Holds (· ∈ h.keys.toList) where
  indexed := w
  mem _ := mem_keys_iff

omit [DecidableEq κ] in
/-- What a heap holds is in its row of keys, in some order. -/
theorem Holds.keys_perm (w : h.Holds (· ∈ l)) (once : l.Nodup) : h.keys.toList.Perm l :=
  (List.perm_ext_iff_of_nodup w.nodup once).mpr fun _ => w.mem_keys

variable [LawfulKey κ]

/-- A request leaves the keys that it is said to leave. -/
theorem holds_serve (w : h.Holds (· ∈ l)) (legal : r.Legal l)
    (served : r.serve less h = .ok (h', answer)) : h'.Holds (· ∈ r.leaves l answer) := by
  cases r with
  | insert k =>
      obtain ⟨h₁, inserted, done⟩ := bind_eq_ok.mp served
      cases done
      refine (holds_insert w inserted).congr fun k' => ?_
      simp [Request.mem_leaves, Request.pool]
  | rise k =>
      obtain ⟨h₁, risen, done⟩ := bind_eq_ok.mp served
      cases done
      refine (holds_rise w risen).congr fun k' => ?_
      simp [Request.mem_leaves, Request.pool]
  | pop =>
      obtain ⟨taken, kept⟩ := holds_pop w served
      cases answer with
      | none =>
          obtain ⟨rfl, -⟩ := kept rfl
          refine w.congr fun k' => ?_
          simp [Request.mem_leaves, Request.pool]
      | some k =>
          obtain ⟨-, holds, -⟩ := taken k rfl
          refine holds.congr fun k' => ?_
          simp [Request.mem_leaves, Request.pool, eq_comm]
  | build ks =>
      obtain ⟨h₁, built, done⟩ := bind_eq_ok.mp served
      cases done
      refine (holds_build w legal built).congr fun k' => ?_
      simp [Request.mem_leaves, Request.pool]

/-- A request that keeps the promise fails only if a comparison does. -/
theorem failsOnly_serve (w : h.Holds (· ∈ l)) (legal : r.Legal l)
    (comparable : Comparable e less (· ∈ r.pool l)) : FailsOnly e (r.serve less h) := by
  cases r with
  | insert k =>
      refine .bind (failsOnly_insert w legal ?_) fun _ _ => .ok _
      exact fun a b ha hb => comparable a b (List.mem_cons.mpr ha) (List.mem_cons.mpr hb)
  | rise k => exact .bind (failsOnly_rise w comparable legal) fun _ _ => .ok _
  | pop => exact failsOnly_pop w comparable
  | build ks => exact .bind (failsOnly_build w legal comparable) fun _ _ => .ok _

/-! ## Many requests -/

namespace Runs

/-- The keys of a heap are those that remain, by induction on the requests. -/
theorem holds (run : Runs past h) : h.Holds (· ∈ remaining past) := by
  induction run with
  | empty => exact holds_empty fun _ => List.not_mem_nil
  | serve less _ legal served ih => exact holds_serve ih legal served

omit [LawfulKey κ] in
theorem nodup_remaining (run : Runs past h) : (remaining past).Nodup := by
  induction run with
  | empty => exact .nil
  | serve less _ legal _ ih => exact Request.nodup_leaves ih legal

end Runs

/-! ## A key that moves -/

/-- A key that moves up finds its place, unless a comparison fails, and what it passes is
kept. -/
theorem gives_siftUp (w : h.Indexed) (there : h.keys[i]? = some k)
    (comparable : Comparable e less (· ∈ h.keys.toList)) :
    Gives e (fun h' => h'.Indexed ∧ h'.keys.toList.Perm h.keys.toList) (siftUp less h k i) where
  failsOnly := failsOnly_siftUp (w.holds.sifting there) w.holds.roomy comparable
  holds h' done := by
    have holds := holds_siftUp (w.holds.sifting there) done
    exact ⟨holds.indexed, holds.keys_perm w.holds.nodup⟩

/-- A key that sinks finds its place, unless a comparison fails, and what it passes is
kept. -/
theorem gives_sink (w : h.Indexed) (inside : i < h.size)
    (comparable : Comparable e less (· ∈ h.keys.toList)) :
    Gives e (fun h' => h'.Indexed ∧ h'.keys.toList.Perm h.keys.toList) (h.sink less i) where
  failsOnly := failsOnly_sink w.holds comparable inside
  holds h' done := by
    have holds := (holds_sink w.holds done).1
    exact ⟨holds.indexed, holds.keys_perm w.holds.nodup⟩

/-! ## The positions -/

/-- After any requests, whatever the comparisons were, a key is recorded at a position if
and only if it stands there, and the other covered keys are recorded nowhere.  The keys are
those inserted or built and not taken out since, none of them twice.  A request fails only
if one of its comparisons does, and so does a key that moves up or sinks, from any position
of a heap with exact positions; it leaves such a heap, with the same keys. -/
theorem Runs.positions_exact (run : Runs past h) :
    (∀ k i, h.positions.get k = .ok (some i) ↔ h.keys[i]? = some k) ∧
      (∀ k, DenseKey.toIndex k < h.positions.size → (∀ i : Nat, h.keys[i]? ≠ some k) →
        h.positions.get k = .ok none) ∧
      h.keys.toList.Nodup ∧ h.keys.toList.Perm (remaining past) ∧
      (∀ k, h.contains k = true ↔ k ∈ remaining past) ∧
      (∀ (r : Request κ) (less : Less κ) (e : Fault → Prop), r.Legal (remaining past) →
        Comparable e less (· ∈ r.pool (remaining past)) → FailsOnly e (r.serve less h)) ∧
      ∀ (h : Heap κ) (less : Less κ) (e : Fault → Prop) (i : Nat) (k : κ), h.Indexed →
        h.keys[i]? = some k → Comparable e less (· ∈ h.keys.toList) →
        Gives e (fun h' => h'.Indexed ∧ h'.keys.toList.Perm h.keys.toList)
            (siftUp less h k i) ∧
          Gives e (fun h' => h'.Indexed ∧ h'.keys.toList.Perm h.keys.toList)
            (h.sink less i) := by
  have w := run.holds
  have recorded : ∀ k i, h.positions.get k = .ok (some i) ↔ h.keys[i]? = some k := by
    intro k i
    rw [DenseMap.get_eq_ok, ← Option.join_eq_some_iff]
    exact w.indexed k i
  refine ⟨recorded, ?_, w.nodup, w.keys_perm run.nodup_remaining, fun k => w.contains_iff,
    fun r less e legal comparable => failsOnly_serve w legal comparable, ?_⟩
  · intro k covered away
    obtain ⟨place, read⟩ := DenseMap.exists_get.mpr covered
    cases place with
    | none => exact read
    | some i => exact absurd ((recorded k i).mp read) (away i)
  · intro h less e i k w there comparable
    have inside : i < h.size := (Array.getElem?_eq_some_iff.mp there).1
    exact ⟨gives_siftUp w there comparable, gives_sink w inside comparable⟩

/-- Of three keys next to each other each goes above the next, around in a circle. -/
def circular : Less Var := fun a b => .ok (decide ((a.index + 1) % 3 = b.index % 3))

deriving instance DecidableEq for DenseMap

deriving instance DecidableEq for Heap

/-- Comparisons that go around in a circle, now in one direction and now in the other, leave
four keys, each at the position recorded for it. -/
theorem circular_positions :
    ∃ h : Heap Var,
      Runs [(.rise ⟨0⟩, none), (.insert ⟨5⟩, none), (.pop, some ⟨2⟩),
        (.build [⟨2⟩, ⟨0⟩, ⟨1⟩, ⟨3⟩], none)] h ∧
      h.keys = #[⟨1⟩, ⟨0⟩, ⟨3⟩, ⟨5⟩] ∧
      (∀ k i, h.positions.get k = .ok (some i) ↔ h.keys[i]? = some k) ∧
      h.positions.get ⟨2⟩ = .ok none ∧ h.keys.toList.Perm [⟨5⟩, ⟨0⟩, ⟨1⟩, ⟨3⟩] ∧
      (∀ k, h.contains k = true ↔ k ∈ [⟨5⟩, ⟨0⟩, ⟨1⟩, ⟨3⟩]) ∧
      (∃ served, Request.serve circular h (.insert ⟨2⟩) = .ok served) ∧
      ∃ h', h.sink circular 0 = .ok h' ∧ h'.Indexed ∧ h'.keys.toList.Perm h.keys.toList := by
  let h₁ : Heap Var := ⟨#[⟨2⟩, ⟨0⟩, ⟨1⟩, ⟨3⟩], ⟨#[some 1, some 2, some 0, some 3]⟩⟩
  let h₂ : Heap Var := ⟨#[⟨1⟩, ⟨0⟩, ⟨3⟩], ⟨#[some 1, some 0, none, some 2]⟩⟩
  let h₃ : Heap Var :=
    ⟨#[⟨1⟩, ⟨5⟩, ⟨3⟩, ⟨0⟩], ⟨#[some 3, some 0, none, some 2, none, some 1]⟩⟩
  let h₄ : Heap Var :=
    ⟨#[⟨1⟩, ⟨0⟩, ⟨3⟩, ⟨5⟩], ⟨#[some 1, some 0, none, some 2, none, some 3]⟩⟩
  have built : Runs [(.build [⟨2⟩, ⟨0⟩, ⟨1⟩, ⟨3⟩], none)] h₁ :=
    .serve circular .empty (by decide) (by decide +kernel)
  have popped : Runs [(.pop, some ⟨2⟩), (.build [⟨2⟩, ⟨0⟩, ⟨1⟩, ⟨3⟩], none)] h₂ :=
    .serve (fun a b => circular b a) built trivial (by decide +kernel)
  have inserted : Runs [(.insert ⟨5⟩, none), (.pop, some ⟨2⟩),
      (.build [⟨2⟩, ⟨0⟩, ⟨1⟩, ⟨3⟩], none)] h₃ :=
    .serve circular popped (by decide) (by decide +kernel)
  have risen : Runs [(.rise ⟨0⟩, none), (.insert ⟨5⟩, none), (.pop, some ⟨2⟩),
      (.build [⟨2⟩, ⟨0⟩, ⟨1⟩, ⟨3⟩], none)] h₄ :=
    .serve (fun a b => circular b a) inserted (by decide) (by decide +kernel)
  have answers : ∀ m, Comparable (fun _ => False) circular m := fun _ _ _ _ _ => .ok _
  obtain ⟨recorded, absent, -, perm, contained, served, moved⟩ := risen.positions_exact
  have sunk := (moved h₄ circular (fun _ => False) 0 ⟨1⟩ risen.holds.indexed rfl (answers _)).2
  obtain ⟨h', done⟩ := sunk.failsOnly.exists_ok
  refine ⟨h₄, risen, rfl, recorded, absent ⟨2⟩ (by decide) ?_, perm, contained,
    (served (.insert ⟨2⟩) circular _ (by decide) (answers _)).exists_ok, h', done,
    sunk.holds h' done⟩
  intro i there
  exact absurd (mem_keys_iff.mpr ⟨i, there⟩) (by decide)

end Cdcl.Heap
