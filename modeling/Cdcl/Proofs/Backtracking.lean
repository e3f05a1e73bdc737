import Cdcl.Proofs.Drifting
import Cdcl.Proofs.Permanence
import Cdcl.Proofs.Telling

/-!
# Going back

Going back to a level in two steps is the same as going back at once, whatever is done in
between to the heap and to the signs that are remembered; and going back undoes a search: the
trail, the values, the levels and the reasons are as they were where the search began.

* `undo_add`, `undo_reframe` — literals are taken off one by one, and what is done to each of
  them does not depend on how the trail is divided into levels;
* `cancelUntil_eq`, `cancelUntil_twice` — going back, in one step and in two;
* `Trail.Beyond`, `Trail.Restored` — a trail that has grown above a level, and how it is when
  the levels above are undone;
* `Reaches.cancelUntil_undoes` — the theorem about runs.
-/

namespace Cdcl

namespace Trail

variable {t t' t'' : Trail} {marks : Array Nat} {head : Nat} {p : Lit} {r : Reason}

/-! ## Other levels -/

/-- The trail divided into levels in another way. -/
def reframe (t : Trail) (marks : Array Nat) (head : Nat) : Trail := { t with marks, head }

/-- Taking the last literal off does not look at the levels. -/
theorem pop_reframe (t : Trail) (marks : Array Nat) (head : Nat) :
    (t.reframe marks head).pop = t.pop.map fun r => (r.1.reframe marks head, r.2) := by
  unfold pop reframe
  cases t.lits.back? with
  | none => rfl
  | some p =>
      dsimp only
      cases t.values.set p.var .unknown with
      | error f => rfl
      | ok values => rfl

end Trail

namespace Solver

variable {mode : PhaseSaving} {last last' m n k a b : Nat} {t t' : Trail} {o o' : Order}
  {s s' : Solver}

/-! ## Undoing in two steps -/

/-- Literals may be taken off in two goes. -/
theorem undo_add : undo mode last (m + n) t o =
    undo mode last m t o >>= fun r => undo mode last n r.1 r.2 := by
  induction m generalizing t o with
  | zero => rw [Nat.zero_add]; rfl
  | succ m ih =>
      rw [Nat.succ_add]
      simp only [undo, ih, bind_assoc]

/-- Taking literals off leaves the marks, which are cut afterwards. -/
theorem marks_undo (h : undo mode last n t o = .ok (t', o')) : t'.marks = t.marks := by
  induction n generalizing t o with
  | zero =>
      cases h
      rfl
  | succ n ih =>
      obtain ⟨⟨t₁, p⟩, popped, h⟩ := bind_eq_ok.mp h
      obtain ⟨o₁, -, h⟩ := bind_eq_ok.mp h
      obtain ⟨-, values, -, rfl⟩ := Trail.pop_eq_ok.mp popped
      have same := ih h
      exact same

/-- Unless only some signs are remembered, undoing does not depend on the levels. -/
theorem undo_reframe (free : mode ≠ .limited) (marks : Array Nat) (head : Nat) :
    undo mode last n (t.reframe marks head) o =
      (undo mode last' n t o).map fun r => (r.1.reframe marks head, r.2) := by
  have saves : ∀ i, savesPhase mode last i = savesPhase mode last' i := by
    intro i
    cases mode with
    | full => rfl
    | limited => exact absurd rfl free
    | none => rfl
  induction n generalizing t o with
  | zero => rfl
  | succ n ih =>
      unfold undo
      rw [Trail.pop_reframe]
      cases t.pop with
      | error f => rfl
      | ok r =>
          obtain ⟨t₁, p⟩ := r
          change (o.release (savesPhase mode last t₁.size) p >>= _) =
            (o.release (savesPhase mode last' t₁.size) p >>= _).map _
          rw [saves]
          cases o.release (savesPhase mode last' t₁.size) p with
          | error f => rfl
          | ok o₁ => exact ih

/-- Where the last level begins. -/
def lastMark (s : Solver) : Nat := s.net.trail.cut (s.level - 1)

/-- The solver at the end of a level, with the trail and the order that undoing has led to. -/
def backTo (s : Solver) (k : Nat) (r : Trail × Order) : Solver :=
  { s with
    net := { s.net with trail := r.1.reframe (s.net.trail.marks.shrink k) (s.net.trail.cut k) }
    order := r.2 }

/-- Going back is undoing, followed by cutting the marks. -/
theorem backtrack_eq (w : s.net.trail.WF) (below : k < s.level) :
    s.backtrack k =
      (undo s.options.phaseSaving s.lastMark (s.net.trail.lits.size - s.net.trail.cut k)
        s.net.trail s.order).map (s.backTo k) := by
  have ends : ∀ j, j < s.level → s.net.trail.levelEnd j = .ok (s.net.trail.cut j) := fun j low =>
    Trail.levelEnd_eq_ok.mpr ⟨low, rfl⟩
  have last : s.net.trail.levelEnd (s.net.trail.level - 1) = .ok s.lastMark :=
    ends _ (Nat.sub_lt (Nat.zero_lt_of_lt below) Nat.one_pos)
  have count : checkedSub s.net.trail.size (s.net.trail.cut k) =
      .ok (s.net.trail.lits.size - s.net.trail.cut k) := if_pos w.cut_le
  unfold backtrack
  simp only [ends k below, last, count, bind, Except.bind]
  cases undone : undo s.options.phaseSaving s.lastMark
      (s.net.trail.lits.size - s.net.trail.cut k) s.net.trail s.order with
  | error f => rfl
  | ok r =>
      have marks : r.1.marks = s.net.trail.marks := marks_undo undone
      simp only [marks]
      rfl

/-- The call that goes back tells so first, and drops the pending conflict. -/
theorem cancelUntil_eq (w : s.net.trail.WF) (below : k < s.level) :
    s.cancelUntil k =
      (undo s.options.phaseSaving s.lastMark (s.net.trail.lits.size - s.net.trail.cut k)
        s.net.trail s.order).map fun r =>
          { (s.log (.cancelUntil k)).backTo k r with pending := none } := by
  unfold cancelUntil
  rw [if_pos below, backtrack_eq (s := s.log _) w below]
  have drop : ∀ x : Except Fault (Trail × Order),
      (x.map ((s.log (.cancelUntil k)).backTo k) >>= fun s => pure { s with pending := none }) =
        x.map fun r => { (s.log (.cancelUntil k)).backTo k r with pending := none } :=
    fun x => by cases x <;> rfl
  exact drop _

/-- Going back in two steps is going back at once, unless only some signs are remembered. -/
theorem cancelUntil_twice (w : s.net.trail.WF) (covers : s.order.Covers s.net.trail none)
    (free : s.options.phaseSaving ≠ .limited) (first : a < s.level) (second : b < a) :
    ((s.cancelUntil a) >>= (·.cancelUntil b)).map hushed = (s.cancelUntil b).map hushed := by
  have cuts : s.net.trail.cut b ≤ s.net.trail.cut a := w.sorted (Nat.le_of_lt second)
  have bound : s.net.trail.cut a ≤ s.net.trail.lits.size := w.cut_le
  have count : s.net.trail.lits.size - s.net.trail.cut b =
      (s.net.trail.lits.size - s.net.trail.cut a) + (s.net.trail.cut a - s.net.trail.cut b) := by
    omega
  rw [cancelUntil_eq w (Nat.lt_trans second first), count, undo_add]
  cases undone : undo s.options.phaseSaving s.lastMark
      (s.net.trail.lits.size - s.net.trail.cut a) s.net.trail s.order with
  | error f =>
      rw [cancelUntil_eq w first, undone]
      rfl
  | ok r =>
      -- the solver in between
      let s₁ : Solver := { (s.log (.cancelUntil a)).backTo a r with pending := none }
      have done : s.cancelUntil a = .ok s₁ := by
        rw [cancelUntil_eq w first, undone]
        rfl
      rcases cancelUntil_cases w covers done with ⟨high, -⟩ | ⟨-, back⟩
      · exact absurd first (Nat.not_lt.mpr high)
      have cut := back.net.trail
      have size : s₁.net.trail.lits.size = s.net.trail.cut a := cut.size w
      have cut₁ : s₁.net.trail.cut b = s.net.trail.cut b := by
        rw [cut.cut w, Nat.min_eq_left (Nat.le_of_lt second)]
      have second₁ : b < s₁.level := by
        rw [back.level]
        exact second
      have marks : s₁.net.trail.marks.shrink b = s.net.trail.marks.shrink b := by
        apply Array.ext'
        rw [cut.marks, Array.toList_shrink, Array.toList_shrink, Array.toList_shrink,
          List.take_take, Nat.min_eq_left (Nat.le_of_lt second)]
      rw [done]
      change (s₁.cancelUntil b).map hushed = Except.map _ (Except.map _ (undo _ _ _ r.1 r.2))
      rw [cancelUntil_eq (cut.wf w) second₁, size, cut₁]
      change Except.map _ (Except.map _ (undo s.options.phaseSaving _ _ (r.1.reframe _ _) r.2)) = _
      rw [undo_reframe free]
      cases undo s.options.phaseSaving s.lastMark (s.net.trail.cut a - s.net.trail.cut b) r.1 r.2
        with
      | error f => rfl
      | ok r' =>
          refine congrArg Except.ok ?_
          have journal : s₁.net.journal.hushed = s.net.journal.hushed := Journal.hushed_log _ _
          simp only [hushed, backTo, log, Network.log, Journal.hushed_log, marks, cut₁, journal]
          rfl

/-- There is nothing to undo at or above the current level. -/
theorem cancelUntil_of_le (high : s.level ≤ k) : s.cancelUntil k = .ok s :=
  if_neg (Nat.not_lt.mpr high)

/-- Going back to where the solver is changes nothing. -/
theorem cancelUntil_again (w : s.net.trail.WF) (covers : s.order.Covers s.net.trail none)
    (h : s.cancelUntil k = .ok s') : s'.cancelUntil k = .ok s' := by
  rcases cancelUntil_cases w covers h with ⟨high, rfl⟩ | ⟨-, back⟩
  · exact h
  · exact cancelUntil_of_le (Nat.le_of_eq back.level)

/-- Going back in two steps or at once comes to the same, unless only some signs are remembered. -/
theorem cancelUntil_comp (w : s.net.trail.WF) (covers : s.order.Covers s.net.trail none)
    (free : s.options.phaseSaving ≠ .limited) (le : b ≤ a) :
    ((s.cancelUntil a) >>= (·.cancelUntil b)).map hushed = (s.cancelUntil b).map hushed := by
  rcases Nat.lt_or_ge a s.level with low | high
  · rcases Nat.lt_or_eq_of_le le with lower | rfl
    · exact cancelUntil_twice w covers free low lower
    · cases h : s.cancelUntil b with
      | error f => rfl
      | ok s₁ => exact congrArg _ (cancelUntil_again w covers h)
  · rw [cancelUntil_of_le high]
    rfl

end Solver

/-! ## Undoing a search -/

namespace Trail

variable {t t' t'' : Trail} {p : Lit} {r : Reason}

/-- The trail has begun levels above those of `t`, and assigned literals in them. -/
structure Beyond (t t' : Trail) : Prop where
  lits : t.lits.toList <+: t'.lits.toList
  marks : t.openLevel.marks.toList <+: t'.marks.toList
  vars : t'.numVars = t.numVars
  origins : ∀ l ∈ t.lits, t'.origins.get l.var = t.origins.get l.var

/-- The trail is as it was, up to what has been propagated and to what is remembered of variables
that have no value. -/
structure Restored (t t' : Trail) : Prop where
  lits : t'.lits = t.lits
  marks : t'.marks = t.marks
  value : ∀ v, t'.value v = t.value v
  levelOf : ∀ l ∈ t.lits, t'.levelOf l.var = t.levelOf l.var
  reasonOf : ∀ l ∈ t.lits, t'.reasonOf l.var = t.reasonOf l.var

/-- The literals of a trail and the number of variables determine the values. -/
theorem value_eq (held : t.Held) (held' : t'.Held) (lits : t'.lits = t.lits)
    (vars : t'.numVars = t.numVars) (v : Var) : t'.value v = t.value v := by
  have same : ∀ b, t'.values.get v = .ok (.ofBool b) ↔ t.values.get v = .ok (.ofBool b) := by
    intro b
    rw [held', lits, held]
  unfold Trail.value
  rcases Nat.lt_or_ge (DenseKey.toIndex v) t.values.size with low | high
  · obtain ⟨x, read⟩ := DenseMap.exists_get.mpr low
    obtain ⟨x', read'⟩ := DenseMap.exists_get.mpr (Nat.lt_of_lt_of_eq low vars.symm)
    have true_ := same true
    have false_ := same false
    rw [read, read'] at true_ false_ ⊢
    cases x <;> cases x' <;> simp_all [Truth.ofBool]
  · have high' : t'.values.size ≤ DenseKey.toIndex v := Nat.le_trans (Nat.le_of_eq vars) high
    unfold DenseMap.get
    rw [Array.getElem?_eq_none high, Array.getElem?_eq_none high']

namespace Beyond

/-- A level that has just been opened is empty. -/
theorem opened (t : Trail) : t.Beyond t.openLevel where
  lits := List.prefix_rfl
  marks := List.prefix_rfl
  vars := rfl
  origins _ _ := rfl

/-- Another level may be opened. -/
theorem openLevel (b : t.Beyond t') : t.Beyond t'.openLevel where
  lits := b.lits
  marks := by
    refine b.marks.trans ?_
    rw [Trail.openLevel, Array.toList_push]
    exact List.prefix_append _ _
  vars := b.vars
  origins := b.origins

/-- A literal may be assigned in the last level. -/
theorem push (b : t.Beyond t') (w : t'.WF) (h : t'.push p r = .ok t'') : t.Beyond t'' where
  lits := by
    refine b.lits.trans ?_
    rw [lits_push h, Array.toList_push]
    exact List.prefix_append _ _
  marks := by
    rw [marks_push h]
    exact b.marks
  vars := (numVars_push h).trans b.vars
  origins l mem := by
    have mem' : l ∈ t'.lits :=
      Array.mem_toList_iff.mp (b.lits.subset (Array.mem_toList_iff.mpr mem))
    have free := w.unknown (push_eq_ok.mp h).1
    have other : l.var ≠ p.var := fun same =>
      (Lit.eq_or_eq_neg same).elim (fun e => free.1 (e ▸ mem')) fun e => free.2 (e ▸ mem')
    rw [origins_push h, if_neg other]
    exact b.origins l mem

theorem withHead (b : t.Beyond t') (i : Nat) : t.Beyond { t' with head := i } :=
  ⟨b.lits, b.marks, b.vars, b.origins⟩

/-- The first of the new levels begins where the old trail ends. -/
theorem mark (b : t.Beyond t') : t'.marks[t.level]? = some t.lits.size := by
  obtain ⟨rest, e⟩ := b.marks
  have length : t.level = t.marks.toList.length := Array.length_toList.symm
  rw [← Array.getElem?_toList, ← e, Trail.openLevel, Array.toList_push, List.append_assoc, length,
    List.getElem?_append_right (Nat.le_refl _), Nat.sub_self]
  rfl

theorem level_lt (b : t.Beyond t') : t.level < t'.level :=
  (Array.getElem?_eq_some_iff.mp b.mark).1

/-- Cutting the new levels off restores the trail. -/
theorem restored (b : t.Beyond t') (w : t.WF) (c : t'.CutBack t.level t'') : t.Restored t'' := by
  have lits : t''.lits = t.lits := by
    obtain ⟨rest, e⟩ := b.lits
    apply Array.ext'
    have end_ : t'.cut t.level = t.lits.toList.length := by
      unfold cut
      rw [b.mark, Array.length_toList]
      rfl
    rw [c.lits, upTo, end_, ← e, List.take_left]
  have origins : ∀ l ∈ t.lits, t''.origins.get l.var = t.origins.get l.var := by
    intro l mem
    rw [c.origins]
    exact b.origins l mem
  refine ⟨lits, ?_, fun v => ?_, fun l mem => ?_, fun l mem => ?_⟩
  · obtain ⟨rest, e⟩ := b.marks
    apply Array.ext'
    rw [c.marks, Array.toList_shrink, ← e, Trail.openLevel, Array.toList_push, List.append_assoc]
    exact List.take_left
  · exact value_eq w.held c.held lits (c.sizes.trans b.vars) v
  · unfold Trail.levelOf
    rw [origins l mem]
  · unfold Trail.reasonOf
    rw [origins l mem]

end Beyond

end Trail

/-- A propagation assigns literals in the last level only. -/
theorem Network.Drifts.beyond {n n' : Network} {t : Trail} (d : n.Drifts n') (w : n.trail.WF)
    (b : t.Beyond n.trail) : n'.trail.WF ∧ t.Beyond n'.trail := by
  induction d with
  | refl => exact ⟨w, b⟩
  | tail _ step ih =>
      obtain ⟨w', b'⟩ := ih
      cases step with
      | relist => exact ⟨w', b'⟩
      | enqueue h => exact ⟨w'.push (enqueued h).trail, b'.push w' (enqueued h).trail⟩
      | head bound => exact ⟨w'.withHead bound, b'.withHead _⟩

/-- Does the call take part in a search that learns nothing? -/
def Call.probes : Call → Bool
  | .decide _ | .pushLevel | .propagate => true
  | _ => false

namespace Solver

variable {t : Trail} {c : Call} {fuel a b : Nat} {reply : Reply} {options : Options}
  {allowed : Solver → Call → Prop} {calls more : List Call} {s s' s'' : Solver}

/-- A call that takes part in a search stays beyond the trail, once a level has been begun. -/
theorem beyond_perform (w : s.net.trail.WF) (probes : c.probes = true)
    (before : (s.net.trail = t ∧ c.begins = true) ∨ t.Beyond s.net.trail)
    (h : s.perform fuel c = .ok (s', reply)) : t.Beyond s'.net.trail := by
  have opens : t.Beyond s.net.trail.openLevel := by
    rcases before with ⟨rfl, -⟩ | beyond
    · exact .opened _
    · exact beyond.openLevel
  cases c with
  | decide l =>
      obtain ⟨s₁, decided, h⟩ := bind_eq_ok.mp h
      cases h
      obtain ⟨_, -, decided⟩ := bind_eq_ok.mp decided
      obtain ⟨_, -, decided⟩ := bind_eq_ok.mp decided
      obtain ⟨n, assigned, rfl⟩ := updateNet_eq_ok.mp decided
      exact opens.push w.openLevel (Network.enqueued assigned).trail
  | pushLevel =>
      cases h
      exact opens
  | propagate =>
      have beyond : t.Beyond s.net.trail := before.resolve_left fun first => nomatch first.2
      obtain ⟨⟨s₁, yes⟩, propagated, h⟩ := bind_eq_ok.mp h
      cases h
      unfold Solver.propagate at propagated
      split at propagated
      next =>
        cases propagated
        exact beyond
      next =>
        obtain ⟨⟨s₂, conflict⟩, all, propagated⟩ := bind_eq_ok.mp propagated
        obtain ⟨count, drained, e⟩ := propagateAll_eq_ok all
        have after : t.Beyond s₂.net.trail := ((Network.drifts_drain drained).beyond w beyond).2
        cases conflict with
        | none =>
            cases propagated
            exact after
        | some id =>
            dsimp only at propagated
            split at propagated <;> cases propagated <;> exact after
  | _ => cases probes

/-- Calls that take part in a search leave the trail below the first level that they begin as it
was. -/
theorem Onward.beyond (run : Reaches options allowed calls s) (later : s.Onward more s')
    (begins : ∀ c ∈ more.head?, c.begins = true) (probes : ∀ c ∈ more, c.probes = true) :
    (more = [] ∧ s' = s) ∨ s.net.trail.Beyond s'.net.trail := by
  induction later with
  | refl => exact .inl ⟨rfl, rfl⟩
  | @call more s₁ s' c fuel reply before performed ih =>
      have w : s₁.net.trail.WF := (run.onward before).standing.inv.net.wf.trail
      have last : c.probes = true := probes c (by simp)
      refine .inr (beyond_perform w last ?_ performed)
      have begins' : ∀ c' ∈ more.head?, c'.begins = true := by
        intro c' first
        apply begins
        rw [List.head?_append, Option.mem_def.mp first]
        rfl
      rcases ih begins' fun c' mem => probes c' (List.mem_append_left _ mem) with
        ⟨rfl, rfl⟩ | beyond
      · exact .inl ⟨rfl, begins c rfl⟩
      · exact .inr beyond

/-- Going back to the level below the first one that the calls began restores the trail. -/
theorem Onward.restored (run : Reaches options allowed calls s)
    (later : s.Onward (c :: more) s') (begins : c.begins = true)
    (probes : ∀ c' ∈ c :: more, c'.probes = true) (h : s'.cancelUntil s.level = .ok s'') :
    s.net.trail.Restored s''.net.trail := by
  have first : ∀ c' ∈ (c :: more).head?, c'.begins = true := by
    intro c' same
    cases same
    exact begins
  have inv := (run.onward later).standing.inv
  rcases later.beyond run first probes with ⟨none, -⟩ | beyond
  · cases none
  rcases cancelUntil_cases inv.net.wf.trail inv.covers h with ⟨high, -⟩ | ⟨-, back⟩
  · exact absurd beyond.level_lt (Nat.not_lt.mpr high)
  · exact beyond.restored run.standing.inv.net.wf.trail back.net.trail

/-- Going back in a run fails only if activities cannot be compared. -/
theorem Reaches.failsOnly_cancelUntil (run : Reaches options allowed calls s) (k : Nat) :
    FailsOnly (· = .incomparableActivities) (s.cancelUntil k) := by
  have gives : Gives (· = .incomparableActivities) Sane (s.cancelUntil k) :=
    cancelUntil_sane rfl run.standing.inv run.sane
  exact gives.failsOnly

/-- Going back to one level and then to a lower one, or to the same, is going back to the lower one
at once: the solvers are equal but for the messages that have been logged, and what fails fails
alike, unless only the signs of the last level are remembered.  It fails only if the activities
of two variables cannot be compared.  At or above the current level there is nothing to undo, so
going back twice to one level changes nothing the second time.  And going back undoes what was
decided and propagated since a level was begun: the trail, the marks and the values are as they
were then, and so are the levels and the reasons of the assigned variables. -/
theorem Reaches.cancelUntil_undoes (run : Reaches options allowed calls s) :
    (∀ a b, b ≤ a → s.options.phaseSaving ≠ .limited →
      (s.cancelUntil a >>= (·.cancelUntil b)).map hushed = (s.cancelUntil b).map hushed) ∧
    (∀ a, FailsOnly (· = .incomparableActivities) (s.cancelUntil a)) ∧
    (∀ a, s.level ≤ a → s.cancelUntil a = .ok s) ∧
    (∀ a s', s.cancelUntil a = .ok s' → s'.cancelUntil a = .ok s') ∧
    ∀ c more s', s.Onward (c :: more) s' → c.begins = true →
      (∀ c' ∈ c :: more, c'.probes = true) →
      FailsOnly (· = .incomparableActivities) (s'.cancelUntil s.level) ∧
        ∀ s'', s'.cancelUntil s.level = .ok s'' → s.net.trail.Restored s''.net.trail := by
  have w : s.net.trail.WF := run.standing.inv.net.wf.trail
  have covers := run.standing.inv.covers
  refine ⟨fun a b le free => cancelUntil_comp w covers free le, run.failsOnly_cancelUntil,
    fun a high => cancelUntil_of_le high, fun a s' h => cancelUntil_again w covers h, ?_⟩
  intro c more s' later begins probes
  exact ⟨(run.onward later).failsOnly_cancelUntil _,
    fun s'' h => later.restored run begins probes h⟩

/-- Three implications, and decisions that make two of them imply a literal. -/
def twoImplied : List Call :=
  [.newVar {}, .newVar {}, .newVar {}, .newVar {}, .newVar {}, .newVar {}, .newVar {},
    .addClause [⟨⟨0⟩, false⟩, ⟨⟨1⟩, true⟩], .addClause [⟨⟨2⟩, false⟩, ⟨⟨3⟩, true⟩],
    .addClause [⟨⟨4⟩, false⟩, ⟨⟨5⟩, false⟩], .decide ⟨⟨0⟩, true⟩, .propagate, .pushLevel,
    .decide ⟨⟨2⟩, true⟩, .propagate]

/-- A decision that makes the third one imply a literal, and a level without any. -/
def thirdImplied : List Call := [.decide ⟨⟨4⟩, true⟩, .propagate, .pushLevel]

/-- Three levels, of which the second is empty, are undone in two steps, and two more are undone
that were begun above them. -/
theorem levels_undone : ∃ s s₁ s₂ s₃ s' s'' : Solver,
    Reaches {} (fun _ _ => True) twoImplied s ∧ s.level = 3 ∧ s.cancelUntil 2 = .ok s₁ ∧
      s₁.cancelUntil 0 = .ok s₂ ∧ s.cancelUntil 0 = .ok s₃ ∧ s₂.hushed = s₃.hushed ∧
      s.Onward thirdImplied s' ∧ s'.level = 5 ∧ s'.net.trail.size = 6 ∧
      s'.cancelUntil 3 = .ok s'' ∧ s.net.trail.Restored s''.net.trail := by
  have found : ∃ s ∈ (create {} false none).toOption,
      ∃ s₁ ∈ s.playAll (fun _ _ => True) twoImplied, s₁.level = 3 ∧
        s₁.options.phaseSaving ≠ .limited ∧
        (∃ s₂ ∈ (s₁.cancelUntil 2).toOption, (s₂.cancelUntil 0).toOption.isSome = true) ∧
        ∃ s' ∈ s₁.playAll (fun _ _ => True) thirdImplied, s'.level = 5 ∧
          s'.net.trail.size = 6 ∧ (s'.cancelUntil 3).toOption.isSome = true := by
    decide +kernel
  obtain ⟨s, run, level, free, ⟨s₁, first, second⟩, s', played, level', size, undone⟩ :=
    exists_played found
  obtain ⟨s₂, second⟩ := Option.isSome_iff_exists.mp second
  obtain ⟨s'', undone⟩ := Option.isSome_iff_exists.mp undone
  have first := eq_ok_of_toOption first
  have second := eq_ok_of_toOption second
  have undone := eq_ok_of_toOption undone
  have later : s.Onward thirdImplied s' := Onward.refl.playAll played
  obtain ⟨composes, -, -, -, undoes⟩ := run.cancelUntil_undoes
  have once := composes 2 0 (by decide) free
  rw [first] at once
  change (s₁.cancelUntil 0).map hushed = _ at once
  rw [second] at once
  cases direct : s.cancelUntil 0 with
  | error f =>
      rw [direct] at once
      cases once
  | ok s₃ =>
      rw [direct] at once
      have restored := (undoes _ _ s' later rfl (by decide)).2 s''
      rw [level] at restored
      exact ⟨s, s₁, s₂, s₃, s', s'', run, level, first, second, direct, Except.ok.inj once, later,
        level', size, undone, restored undone⟩

end Solver

end Cdcl
