import Cdcl.Call
import Cdcl.Proofs.Loading
import Cdcl.Proofs.Search

/-!
# What calls keep

Every call keeps what holds between calls, `Ready`, for the formula with the clauses that
the call submits.

* `Ready.perform` — the calls that begin no level;
* `Ready.begin` — the calls that begin one;
* `ready_create` — a fresh solver.

`Suits` lists what the regime asks of a call: a clause that is added above the root level
must not imply a literal that does not follow, and the level that the solver goes back to
has to be settled.
-/

namespace Cdcl

/-- Does the call begin a level? -/
def Call.begins : Call → Bool
  | .decide _ => true
  | .pushLevel => true
  | _ => false

/-- Does the call submit clauses? -/
def Call.submits : Call → Bool
  | .addClause _ => true
  | .load _ _ => true
  | _ => false

/-- Calls submit their clauses one after the other. -/
theorem submitted_append {cs ds : List Call} :
    submitted (cs ++ ds) = submitted cs ++ submitted ds :=
  List.flatMap_append

theorem submitted_of_silent {c : Call} (silent : c.submits = false) : submitted [c] = [] := by
  cases c <;> first | rfl | cases silent

/-- Does the answer say that the clauses cannot be satisfied? -/
def Call.refuted : Call → Reply → Bool
  | .solve, .truth .fails => true
  | .addClause _, .clause false _ => true
  | .simplify, .flag false => true
  | .resolveConflict, .flag false => true
  | _, _ => false

namespace Solver

open Network (Regime)

variable {g : Regime} {s s' : Solver} {c : Call} {fuel : Nat} {reply : Reply}

/-- What the regime asks of a call. -/
structure Suits (g : Regime) (s : Solver) (c : Call) (s' : Solver) : Prop where
  adding : ∀ d, c = .addClause d → g.sound → s.ok = true → 0 < s.level → s.AssertsRightly d
  loading : ∀ strict bs, c = .load strict bs → Welcomes g s
  landing : (g.during s'.ok).paced → s'.level < s.level → g.settled s'.level

/-! ## One call after the other -/

/-- A search keeps what holds between calls, and a refusal is recorded. -/
theorem Ready.solve {x : Truth} (r : Ready g s)
    (landing : (g.during s'.ok).paced → s'.level < s.level → g.settled s'.level)
    (h : s.solve fuel = .ok (s', x)) :
    Ready g s' ∧ s.Descends s' ∧ (x = .fails → s'.ok = false) := by
  rcases r.inv.unpaced.solve r.idle (fun on => on.1.elim) h with ⟨failed, -, rfl⟩ | loose
  · have kin : s.Kin { s with model := #[] } := kin_of_eq rfl rfl rfl rfl
    exact ⟨r.kin kin, kin.descends, fun _ => failed⟩
  · have root := loose.root
    have descends : s.Descends s' := ⟨root ▸ Nat.zero_le _, .inl loose.idle⟩
    refine ⟨⟨loose.idle ▸ ?_, fun _ => loose.idle⟩, descends, loose.fails⟩
    -- a search that fails asks nothing of the levels below
    cases ok : s'.ok with
    | false =>
        have inv : s'.Inv { { g with settled := fun _ => True } with paced := False } none none :=
          loose.inv
        exact (inv.paced ok).resettleRoot root g.settled
    | true =>
        have settled : (g.during s.ok).paced → 0 < s.level → g.settled 0 := by
          intro on high
          rw [root] at landing
          exact landing ⟨on.1, ok⟩ high
        rcases r.inv.solve r.idle settled h with ⟨failed, -, rfl⟩ | concluded
        · exact absurd (failed.symm.trans ok) nofun
        · exact concluded.inv.resettleRoot root g.settled

/-- Simplification keeps what holds between calls, and answers whether all is right. -/
theorem Ready.simplify {b : Bool} (r : Ready g s) (h : s.simplify = .ok (s', b)) :
    Ready g s' ∧ s.Descends s' ∧ s'.ok = b := by
  unfold Solver.simplify at h
  split at h
  next root =>
    have idle := r.idle root
    obtain ⟨inv, level, idle', ok, -⟩ := (idle ▸ r.inv : s.Inv g none none).simplifyRoot idle h
    exact ⟨⟨idle' ▸ inv, fun _ => idle'⟩, ⟨level ▸ Nat.zero_le _, .inl idle'⟩, ok⟩
  next => cases h

/-- A propagation that answers yes leaves nothing to propagate. -/
theorem Ready.propagate {b : Bool} (r : Ready g s) (h : s.propagate = .ok (s', b)) :
    Ready g s' ∧ s.net.trail.Grows s'.net.trail ∧ (b = true → s'.Quiet ∧ s'.ok = true) := by
  unfold Solver.propagate at h
  split at h
  next =>
    cases h
    exact ⟨r, .refl _, nofun⟩
  next fine =>
    simp only [Bool.or_eq_true, Bool.not_eq_true', not_or, Bool.not_eq_false,
      Option.not_isSome_iff_eq_none] at fine
    obtain ⟨ok, idle⟩ := fine
    obtain ⟨⟨s₁, conflict⟩, propagated, h⟩ := bind_eq_ok.mp h
    obtain ⟨advance, i⟩ := (idle ▸ r.inv : s.Inv g none none).propagateAll propagated
    have quiet := advance.settles idle
    have grows := advance.grows
    cases conflict with
    | none =>
        cases h
        have ok' : s'.ok = true := by
          rw [advance.rest]
          exact ok
        exact ⟨⟨quiet.2.symm ▸ i, fun _ => quiet.2⟩, grows, fun _ => ⟨quiet, ok'⟩⟩
    | some id =>
        simp only at h
        split at h
        next root =>
          cases h
          have inv := i.fail (i.unsatisfiable root) (.inl rfl)
          exact ⟨⟨quiet.2.symm ▸ inv, fun _ => quiet.2⟩, grows, nofun⟩
        next high =>
          cases h
          exact ⟨⟨⟨i.net, i.refutes, i.covers, i.refuted⟩, fun root => absurd root high⟩, grows,
            nofun⟩

/-- Resolving a conflict keeps what holds between calls, and answers whether all is right. -/
theorem Ready.resolveConflict {b : Bool} (r : Ready g s)
    (landing : (g.during s'.ok).paced → s'.level < s.level → g.settled s'.level)
    (h : s.resolveConflict = .ok (s', b)) : Ready g s' ∧ s.Descends s' ∧ s'.ok = b := by
  have high : s.pending.isSome → 0 < s.level := by
    intro some_
    apply Nat.pos_of_ne_zero
    intro root
    rw [r.idle root] at some_
    cases some_
  obtain ⟨inv, idle, lower, same⟩ :=
    r.inv.resolveConflict high (fun on ok => landing ⟨on, ok⟩) h
  exact ⟨⟨idle.symm ▸ inv, fun _ => idle⟩, ⟨lower, .inl idle⟩, same.symm⟩

theorem Ready.cancelUntil {k : Nat} (r : Ready g s)
    (landing : (g.during s'.ok).paced → s'.level < s.level → g.settled s'.level)
    (h : s.cancelUntil k = .ok s') : Ready g s' ∧ s.Descends s' := by
  have same := (r.inv.unpaced.retreats (fun on => on.1.elim) h).ok
  have retreats := r.inv.retreats (fun on => landing (same ▸ on)) h
  exact ⟨r.descend retreats.inv retreats.descends, retreats.descends⟩

/-- A call that submits nothing. -/
theorem Ready.silent (d : Ready g s' ∧ s.Descends s') (none_ : c.clauses = [])
    (accepts : c.refuted reply = false) : Ready (g.more c.clauses) s' ∧ s'.level ≤ s.level ∧
      (c.refuted reply = true → s'.ok = false) := by
  rw [none_, Regime.more_nil]
  exact ⟨d.1, d.2.level, fun yes => absurd (accepts.symm.trans yes) nofun⟩

theorem Ready.same (r : Ready g s) (k : s.Kin s') : Ready g s' ∧ s.Descends s' :=
  ⟨r.kin k, k.descends⟩

/-- A call that begins no level keeps what holds between calls. -/
theorem Ready.perform (r : Ready g s) (stays : c.begins = false) (suits : Suits g s c s')
    (h : s.perform fuel c = .ok (s', reply)) :
    Ready (g.more c.clauses) s' ∧ s'.level ≤ s.level ∧
      (c.refuted reply = true → s'.ok = false) := by
  cases c with
  | newVar spec =>
      obtain ⟨⟨s₁, v⟩, added, h⟩ := bind_eq_ok.mp h
      cases h
      exact Ready.silent (r.newVar added) rfl rfl
  | varOfIndex i =>
      obtain ⟨⟨s₁, v⟩, added, h⟩ := bind_eq_ok.mp h
      cases h
      exact Ready.silent (r.varOfIndex added) rfl rfl
  | addClause d =>
      obtain ⟨⟨s₁, answer, left⟩, added, h⟩ := bind_eq_ok.mp h
      cases h
      have adds := r.inv.addClause r.idle (suits.adding d rfl) suits.landing added
      refine ⟨r.descend adds.inv adds.descends, adds.descends.level, fun yes => ?_⟩
      cases answer with
      | false => exact adds.answer
      | true => cases yes
  | load strict bs =>
      obtain ⟨⟨s₁, error⟩, loaded, h⟩ := bind_eq_ok.mp h
      cases h
      obtain ⟨r', d⟩ := r.load (suits.loading strict bs rfl) loaded
      have same : (Call.load strict bs).clauses =
          (Dimacs.read strict bs).items.filterMap clauseOf := rfl
      exact ⟨same ▸ r', d.level, nofun⟩
  | solve =>
      obtain ⟨⟨s₁, answer⟩, solved, h⟩ := bind_eq_ok.mp h
      cases h
      obtain ⟨r', d, fails⟩ := r.solve suits.landing solved
      refine ⟨(Regime.more_nil g).symm ▸ r', d.level, fun yes => ?_⟩
      cases answer with
      | fails => exact fails rfl
      | _ => cases yes
  | simplify =>
      obtain ⟨⟨s₁, answer⟩, simplified, h⟩ := bind_eq_ok.mp h
      cases h
      obtain ⟨r', d, ok⟩ := r.simplify simplified
      refine ⟨(Regime.more_nil g).symm ▸ r', d.level, fun yes => ?_⟩
      cases answer with
      | false => exact ok
      | true => cases yes
  | propagate =>
      obtain ⟨⟨s₁, answer⟩, propagated, h⟩ := bind_eq_ok.mp h
      cases h
      obtain ⟨r', grows, -⟩ := r.propagate propagated
      exact ⟨(Regime.more_nil g).symm ▸ r', Nat.le_of_eq grows.level, nofun⟩
  | resolveConflict =>
      obtain ⟨⟨s₁, answer⟩, resolved, h⟩ := bind_eq_ok.mp h
      cases h
      obtain ⟨r', d, ok⟩ := r.resolveConflict suits.landing resolved
      refine ⟨(Regime.more_nil g).symm ▸ r', d.level, fun yes => ?_⟩
      cases answer with
      | false => exact ok
      | true => cases yes
  | decide l => cases stays
  | pushLevel => cases stays
  | cancelUntil k =>
      obtain ⟨s₁, cancelled, h⟩ := bind_eq_ok.mp h
      cases h
      exact Ready.silent (r.cancelUntil suits.landing cancelled) rfl rfl
  | setReliable v b =>
      obtain ⟨s₁, set_, h⟩ := bind_eq_ok.mp h
      obtain ⟨_, -, set_⟩ := bind_eq_ok.mp set_
      obtain ⟨_, -, set_⟩ := bind_eq_ok.mp set_
      cases set_
      cases h
      exact Ready.silent (r.same (kin_of_eq rfl rfl rfl rfl)) rfl rfl
  | setDecision v b =>
      obtain ⟨s₁, set_, h⟩ := bind_eq_ok.mp h
      obtain ⟨order, changed, rfl⟩ := updateOrder_eq_ok.mp set_
      cases h
      have i := r.inv
      have inv : { s with order }.Inv g s.pending none :=
        ⟨i.net, i.refutes, Order.covers_setEligible i.covers changed, i.refuted⟩
      have d : s.Descends { s with order } := .of_eq rfl rfl
      exact Ready.silent ⟨r.descend inv d, d⟩ rfl rfl
  | setObserved v b =>
      obtain ⟨s₁, set_, h⟩ := bind_eq_ok.mp h
      obtain ⟨_, -, set_⟩ := bind_eq_ok.mp set_
      cases set_
      cases h
      exact Ready.silent (r.same ⟨⟨rfl, rfl, fun _ => rfl, rfl, fun h => h⟩, fun h => h, rfl, rfl⟩)
        rfl rfl
  | setBudget b =>
      cases h
      exact Ready.silent (r.same (kin_of_eq rfl rfl rfl rfl)) rfl rfl
  | setInterrupt b =>
      cases h
      exact Ready.silent (r.same (kin_of_eq rfl rfl rfl rfl)) rfl rfl
  | setStop answer =>
      cases h
      exact Ready.silent (r.same (kin_of_eq rfl rfl rfl rfl)) rfl rfl

/-- A call that begins a level.  The level that it leaves is settled if everything has
been propagated. -/
theorem Ready.begin {settled : Nat → Prop} (r : Ready g s) (begins : c.begins = true)
    (opens : s.Opens g { g with settled } s.pending)
    (h : s.perform fuel c = .ok (s', reply)) :
    Ready { g with settled } s' ∧ c.clauses = [] ∧ c.refuted reply = false := by
  cases c with
  | decide l =>
      obtain ⟨s₁, decided, h⟩ := bind_eq_ok.mp h
      cases h
      obtain ⟨inv, level, pending, -⟩ := r.inv.decide opens (.inl rfl) decided
      exact ⟨⟨pending ▸ inv, fun root => absurd (level.symm.trans root) (Nat.succ_ne_zero _)⟩,
        rfl, rfl⟩
  | pushLevel =>
      cases h
      have level : s.pushLevel.level = s.level + 1 := Trail.level_openLevel s.net.trail
      exact ⟨⟨r.inv.pushLevel opens,
        fun root => absurd (level.symm.trans root) (Nat.succ_ne_zero _)⟩, rfl, rfl⟩
  | _ => cases begins

/-! ## A fresh solver -/

/-- Nothing has been submitted to a fresh solver. -/
theorem ready_create {options : Options} {listening : Bool} {threshold : Option Severity}
    {outside : Outside} (h : create options listening threshold outside = .ok s)
    (none : g.stored = []) : Ready g s := by
  unfold create at h
  split at h
  · cases h
    exact ⟨⟨Network.fits_empty rfl none, nofun, Order.covers_empty _, nofun⟩, fun _ => rfl⟩
  · cases h

/-! ## Runs -/

/-- The regime of the states that the calls lead to. -/
def regimeOf (calls : List Call) (sound paced : Prop) (settled : Nat → Prop) : Regime :=
  ⟨submitted calls, submitted calls, sound, paced, settled⟩

/-- The clauses of a further call are submitted by the longer run. -/
theorem more_regimeOf {calls : List Call} {sound paced : Prop} {settled : Nat → Prop} :
    (regimeOf calls sound paced settled).more c.clauses =
      regimeOf (calls ++ [c]) sound paced settled := by
  simp [regimeOf, Regime.more, submitted]

/-- One more call of a run. -/
theorem Ready.call {calls : List Call} {sound paced : Prop} {settled settled' : Nat → Prop}
    (r : Ready (regimeOf calls sound paced settled) s)
    (below : ∀ k, k < s.level → settled' k → settled k)
    (leaves : paced → c.begins = true → settled' s.level → s.Quiet)
    (suits : Suits (regimeOf calls sound paced settled) s c s')
    (h : s.perform fuel c = .ok (s', reply)) :
    Ready (regimeOf (calls ++ [c]) sound paced settled') s' ∧
      (c.refuted reply = true → s'.ok = false) := by
  cases begins : c.begins with
  | true =>
      obtain ⟨r', none_, accepts⟩ :=
        r.begin begins (fun on => ⟨below, leaves on begins⟩) h
      have same : regimeOf (calls ++ [c]) sound paced settled' =
          { regimeOf calls sound paced settled with settled := settled' } := by
        rw [← more_regimeOf, none_, Regime.more_nil]
        rfl
      exact ⟨same ▸ r', fun yes => absurd (accepts.symm.trans yes) nofun⟩
  | false =>
      obtain ⟨r', lower, refused⟩ := r.perform begins suits h
      rw [more_regimeOf] at r'
      have below' : ∀ k, k < s'.level → settled' k → settled k := fun k low =>
        below k (Nat.lt_of_lt_of_le low lower)
      exact ⟨⟨r'.inv.resettle below', r'.idle⟩, refused⟩

/-- A run under a condition is a run under every weaker one. -/
theorem Reaches.mono {options : Options} {allowed allowed' : Solver → Call → Prop}
    {calls : List Call} (weaker : ∀ {s c}, allowed s c → allowed' s c)
    (run : Reaches options allowed calls s) : Reaches options allowed' calls s := by
  induction run with
  | fresh created => exact .fresh created
  | call _ fine performed before => exact before.call (weaker fine) performed

/-- Whatever is called, the parts of a solver fit together. -/
theorem Reaches.standing {options : Options} {allowed : Solver → Call → Prop}
    {calls : List Call} (run : Reaches options allowed calls s) :
    Ready (regimeOf calls False False fun _ => True) s := by
  induction run with
  | fresh created => exact ready_create created rfl
  | call _ _ performed before =>
      refine (before.call (fun _ _ left => left) (fun on => on.elim) ?_ performed).1
      refine ⟨fun _ _ on => on.elim, fun _ _ _ => .inr ?_, fun _ _ => trivial⟩
      exact ⟨fun on => on, fun _ => trivial⟩

end Solver

end Cdcl
