import Cdcl.Driving
import Cdcl.Proofs.Models
import Cdcl.Proofs.Refutation
import Cdcl.Proofs.Rehearsing

/-!
# Driven search

A client that drives the search by itself may begin several levels before it lets the
solver propagate.  Going back to such a level leaves clauses unvisited: what was assigned
there counts as propagated, although it was propagated above.

A `Monitor` remembers which levels were left with everything propagated, and whether the
solver went back to levels of that kind only.

* `Monitored.ready` — if it did, all clauses are visited in time;
* `Carried.trans` — calls that go back to quiet levels only compose;
* `decideSome_passed`, `driveFrom_carried` — the search loop is made of calls, and one that
  begins one level at a time goes back to quiet levels only;
* `driven_consistent` — in a clean run no clause is false after a propagation that answers
  yes, and a loop that ends with all variables assigned has found a model.
-/

namespace Cdcl.Solver

open Network (Regime)

variable {options : Options} {calls : List Call} {s s' : Solver} {fuel : Nat}

/-- What is remembered of a run: whether each level below the current one was left with
everything propagated, and whether the solver has gone back to such levels only. -/
structure Monitor where
  settled : Nat → Bool
  clean : Bool

/-- Nothing has happened yet. -/
def Monitor.start : Monitor := ⟨fun _ => false, true⟩

/-- Remembers a call that leads from `s` to `s'`. -/
def Monitor.next (m : Monitor) (s s' : Solver) : Monitor where
  settled k := if s.level ≤ k then Decidable.decide s.Quiet else m.settled k
  clean := m.clean && (!s'.ok || s.level ≤ s'.level || m.settled s'.level)

/-- The calls lead from a fresh solver to the state, with clauses added at the root level,
and this is what is remembered. -/
inductive Monitored (options : Options) : List Call → Solver → Monitor → Prop
  | fresh {listening : Bool} {threshold : Option Severity} {outside : Outside} {s : Solver} :
      create options listening threshold outside = .ok s → Monitored options [] s .start
  | call {calls : List Call} {s s' : Solver} {m : Monitor} {c : Call} {fuel : Nat}
      {reply : Reply} :
      Monitored options calls s m → s.AddsAtRoot c → s.perform fuel c = .ok (s', reply) →
      Monitored options (calls ++ [c]) s' (m.next s s')

namespace Monitor

variable {m : Monitor} {k : Nat}

theorem next_settled_below (low : k < s.level) : (m.next s s').settled k = m.settled k :=
  if_neg (Nat.not_le_of_lt low)

/-- The level at which a call is made counts as settled if everything had been propagated. -/
theorem next_settled_here :
    (m.next s s').settled s.level = true ↔ s.Quiet := by
  simp [next]

/-- A run stays clean as long as it only goes back to levels that were left settled. -/
theorem next_clean : (m.next s s').clean = true ↔
    m.clean = true ∧ (s'.ok = true → s'.level < s.level → m.settled s'.level = true) := by
  simp only [next, Bool.and_eq_true, Bool.or_eq_true, Bool.not_eq_true', decide_eq_true_eq]
  constructor
  · intro given
    rcases given with ⟨clean, ⟨failed | stays⟩ | left⟩
    · exact ⟨clean, fun ok => absurd (failed.symm.trans ok) nofun⟩
    · exact ⟨clean, fun _ lower => absurd lower (Nat.not_lt_of_le stays)⟩
    · exact ⟨clean, fun _ _ => left⟩
  · intro given
    rcases given with ⟨clean, lands⟩
    refine ⟨clean, ?_⟩
    cases ok : s'.ok with
    | false => exact .inl (.inl rfl)
    | true =>
        rcases Nat.lt_or_ge s'.level s.level with lower | stays
        · exact .inr (lands ok lower)
        · exact .inl (.inr stays)

/-- A call that does not go back spoils nothing. -/
theorem next_clean_of_le (stays : s.level ≤ s'.level) : (m.next s s').clean = m.clean := by
  simp [next, stays]

end Monitor

namespace Monitored

variable {m : Monitor}

/-- A run that is monitored is a run. -/
theorem reaches (run : Monitored options calls s m) : Reaches options AddsAtRoot calls s := by
  induction run with
  | fresh created => exact .fresh created
  | call _ fine performed before => exact before.call fine performed

/-- In a clean run all clauses are visited in time. -/
theorem ready (run : Monitored options calls s m) (clean : m.clean = true) :
    Ready (regimeOf calls False True fun k => m.settled k = true) s := by
  induction run with
  | fresh created => exact ready_create created rfl
  | @call calls s s' m c fuel reply _ fine performed before =>
      obtain ⟨clean, lands⟩ := Monitor.next_clean.mp clean
      refine (Ready.call (before clean) ?_ ?_ ?_ performed).1
      · intro k low left
        rwa [Monitor.next_settled_below low] at left
      · exact fun _ _ left => Monitor.next_settled_here.mp left
      · exact ⟨fun _ _ on => on.elim, fun _ _ same => .inl (fine (same ▸ rfl)),
          fun on => lands on.2⟩

/-- In a clean run, when everything has been propagated, each clause is settled. -/
theorem settles (run : Monitored options calls s m) (clean : m.clean = true) (ok : s.ok = true)
    (quiet : s.Quiet) : ∀ c ∈ submitted calls, s.net.Settles c := by
  intro c hc
  have i := (run.ready clean).inv
  rw [quiet.2] at i
  exact i.idle.settles ⟨trivial, ok⟩ quiet.1 hc

end Monitored

/-! ## Runs that are carried out -/

/-- Carries calls out, and remembers what the levels were left like. -/
def watch (m : Monitor) (s : Solver) : List Call → Option (Solver × Monitor)
  | [] => some (s, m)
  | c :: cs =>
      if s.AddsAtRoot c then
        match s.perform 0 c with
        | .ok (s', _) => watch (m.next s s') s' cs
        | .error _ => none
      else
        none

section Watch

variable {m : Monitor} {c : Call} {cs ds : List Call} {reply : Reply} {p : Solver × Monitor}

theorem watch_cons (fine : s.AddsAtRoot c) (performed : s.perform 0 c = .ok (s', reply)) :
    s.watch m (c :: cs) = s'.watch (m.next s s') cs := by
  rw [watch, if_pos fine, performed]

/-- A list of calls may be watched in two parts, with what is remembered handed on. -/
theorem watch_append (done : s.watch m cs = some p) :
    s.watch m (cs ++ ds) = p.1.watch p.2 ds := by
  induction cs generalizing s m with
  | nil =>
      cases done
      rfl
  | cons c cs ih =>
      unfold watch at done
      split at done
      next fine =>
        split at done
        next performed => exact (watch_cons fine performed).trans (ih done)
        next => cases done
      next => cases done

/-- Calls that have been carried out make a run longer. -/
theorem Monitored.watch (run : Monitored options calls s m) (done : s.watch m cs = some p) :
    Monitored options (calls ++ cs) p.1 p.2 := by
  induction cs generalizing calls s m with
  | nil =>
      cases done
      rwa [List.append_nil]
  | cons c cs ih =>
      unfold Solver.watch at done
      split at done
      next fine =>
        split at done
        next s₁ reply performed =>
          have longer := ih (run.call fine performed) done
          rwa [List.append_assoc] at longer
        next => cases done
      next => cases done

end Watch

/-! ## The search loop -/

/-- The variable of the index has a value. -/
def Known (s : Solver) (i : Nat) : Prop := ∃ l ∈ s.net.trail.lits, l.var.index = i

theorem Known.mono {i : Nat} (known : s.Known i)
    (more : ∀ l ∈ s.net.trail.lits, l ∈ s'.net.trail.lits) : s'.Known i := by
  obtain ⟨l, hl, same⟩ := known
  exact ⟨l, more l hl, same⟩

theorem known_of_value {v : Var} {x : Truth} (w : s.net.trail.WF) (read : s.value v = .ok x)
    (known : x ≠ .unknown) : s.Known v.index := by
  obtain ⟨b, rfl⟩ := Truth.eq_ofBool known
  exact ⟨⟨v, b⟩, w.held.mp read, rfl⟩

/-- A variable that is known is passed over by the loop. -/
theorem Known.value_ne {v : Var} (known : s.Known v.index) (w : s.net.trail.WF) :
    s.value v ≠ .ok .unknown := by
  obtain ⟨l, hl, same⟩ := known
  have var : l.var = v := congrArg Var.mk same
  have value : s.net.trail.values.get l.var = .ok (.ofBool l.sign) := w.held.mpr hl
  intro unknown
  have unknown : s.net.trail.values.get l.var = .ok .unknown := var ▸ unknown
  exact Truth.ofBool_ne_unknown l.sign (Except.ok.inj (value.symm.trans unknown))

theorem perform_decide {p : Lit} (h : s.decide p = .ok s') :
    s.perform 0 (.decide p) = .ok (s', .none) :=
  bind_eq_ok.mpr ⟨s', h, rfl⟩

/-- A decision opens a level and puts its literal on the trail. -/
theorem push_of_decide {p : Lit} (h : s.decide p = .ok s') :
    s.net.trail.openLevel.push p .decision = .ok s'.net.trail := by
  obtain ⟨_, -, h⟩ := bind_eq_ok.mp h
  obtain ⟨_, -, h⟩ := bind_eq_ok.mp h
  obtain ⟨n, assigned, rfl⟩ := updateNet_eq_ok.mp h
  exact (Network.enqueued assigned).trail

/-- What deciding variables, of which `n` have been decided in the end and `done` in the
beginning, comes to. -/
structure Opened (s : Solver) (m : Monitor) (done : Nat) (s' : Solver) (m' : Monitor)
    (n : Nat) : Prop where
  count : done ≤ n
  same : n = done → s' = s
  level : s'.level = s.level + (n - done)
  lits : ∀ l ∈ s.net.trail.lits, l ∈ s'.net.trail.lits
  vars : s'.numVars = s.numVars
  clean : m'.clean = m.clean
  below : ∀ k, k < s.level → m'.settled k = m.settled k
  here : done < n → (m'.settled s.level = true ↔ s.Quiet)

namespace Opened

variable {m m₁ m' : Monitor} {s₁ : Solver} {done n : Nat}

theorem refl (s : Solver) (m : Monitor) (n : Nat) : Opened s m n s m n :=
  ⟨Nat.le_refl n, fun _ => rfl, by simp, fun _ hl => hl, rfl, rfl, fun _ _ => rfl,
    fun lt => absurd lt (Nat.lt_irrefl n)⟩

/-- A decision, and what comes after it. -/
theorem decide {p : Lit} (decided : s.decide p = .ok s₁)
    (o : Opened s₁ (m.next s s₁) (done + 1) s' m' n) : Opened s m done s' m' n := by
  have pushed := push_of_decide decided
  have level : s₁.level = s.level + 1 :=
    (Trail.level_push pushed).trans (Trail.level_openLevel s.net.trail)
  have count := o.count
  refine ⟨by omega, fun same => by omega, ?_, fun l hl => ?_, ?_, ?_, fun k low => ?_, fun _ => ?_⟩
  · rw [o.level, level]
    omega
  · exact o.lits l ((Trail.mem_push pushed).mpr (.inl hl))
  · have vars : s₁.net.trail.numVars = s.net.trail.openLevel.numVars := Trail.numVars_push pushed
    exact o.vars.trans vars
  · exact o.clean.trans (Monitor.next_clean_of_le (by omega))
  · rw [o.below k (by omega)]
    exact Monitor.next_settled_below low
  · rw [o.below s.level (by omega)]
    exact Monitor.next_settled_here

end Opened

/-- What the walk along the last `left` variables comes to.  The variables that have been passed
have a value, and unless enough were decided none is left. -/
structure Passed (width left done : Nat) (s : Solver) (m : Monitor) (cs : List Call) (rest : Nat)
    (s' : Solver) (m' : Monitor) : Prop where
  watched : s.watch m cs = some (s', m')
  silent : submitted cs = []
  opened : Opened s m done s' m' (done + cs.length)
  all : done + cs.length < width → rest = 0
  most : done + cs.length ≤ max done width
  known : ∀ i, s.numVars - left ≤ i → i < s.numVars - rest → s'.Known i

namespace Passed

variable {m m₁ m' : Monitor} {s₁ : Solver} {width left done rest : Nat} {cs : List Call}

/-- The walk stops where it is. -/
theorem stop (all : done < width → left = 0) : Passed width left done s m [] left s m where
  watched := rfl
  silent := rfl
  opened := .refl s m done
  all := all
  most := Nat.le_max_left done width
  known _ low high := absurd low (Nat.not_le_of_lt high)

/-- A variable with a value is passed over. -/
theorem skip (here : s.Known (s.numVars - (left + 1)))
    (later : Passed width left done s m cs rest s' m') :
    Passed width (left + 1) done s m cs rest s' m' := by
  refine { later with known := fun i low high => ?_ }
  rcases Nat.lt_or_ge i (s.numVars - left) with first | other
  · have same : s.numVars - (left + 1) = i := by omega
    exact (same ▸ here).mono later.opened.lits
  · exact later.known i other high

/-- A variable without a value is decided. -/
theorem decide {p : Lit} (index : p.var.index = s.numVars - (left + 1)) (more : done < width)
    (decided : s.decide p = .ok s₁)
    (later : Passed width left (done + 1) s₁ (m.next s s₁) cs rest s' m') :
    Passed width (left + 1) done s m (.decide p :: cs) rest s' m' := by
  have performed := perform_decide decided
  have pushed := push_of_decide decided
  have vars : s₁.net.trail.numVars = s.net.trail.openLevel.numVars := Trail.numVars_push pushed
  have vars : s₁.numVars = s.numVars := vars
  have count : done + (Call.decide p :: cs).length = done + 1 + cs.length := by
    rw [List.length_cons]
    omega
  refine ⟨(watch_cons (addsAtRoot_of_silent rfl) performed).trans later.watched, later.silent,
    ?_, ?_, ?_, fun i low high => ?_⟩
  · rw [count]
    exact later.opened.decide decided
  · rw [count]
    exact later.all
  · have most := later.most
    omega
  rcases Nat.lt_or_ge i (s.numVars - left) with first | other
  · have same : p.var.index = i := by omega
    exact ⟨p, later.opened.lits p ((Trail.mem_push pushed).mpr (.inr rfl)), same⟩
  · exact later.known i (by omega) (by omega)

end Passed

/-- Deciding variables is carrying the decisions out. -/
theorem decideSome_passed {m : Monitor} {width left done rest : Nat} {cs : List Call}
    (run : Monitored options calls s m)
    (h : decideSome width left done s = .ok (s', cs, rest)) :
    ∃ m', Passed width left done s m cs rest s' m' := by
  induction left generalizing s calls m done cs with
  | zero =>
      cases h
      exact ⟨m, .stop fun _ => rfl⟩
  | succ left ih =>
      unfold decideSome at h
      simp only at h
      split at h
      next enough =>
        cases h
        exact ⟨m, .stop fun more => absurd more (Nat.not_lt_of_le enough)⟩
      next more =>
        obtain ⟨x, read, h⟩ := bind_eq_ok.mp h
        split at h
        next =>
          obtain ⟨s₁, decided, h⟩ := bind_eq_ok.mp h
          obtain ⟨⟨s₂, ds, rest₂⟩, walked, h⟩ := bind_eq_ok.mp h
          cases h
          have longer := run.call (addsAtRoot_of_silent rfl) (perform_decide decided)
          obtain ⟨m', later⟩ := ih longer walked
          exact ⟨m', later.decide rfl (Nat.lt_of_not_le more) decided⟩
        next known =>
          obtain ⟨m', later⟩ := ih run h
          have w := run.reaches.standing.inv.net.wf.trail
          exact ⟨m', later.skip (known_of_value w read known)⟩

/-! ## Calls of the loop -/

/-- All levels below the current one were left quiet. -/
def Monitor.Tidy (m : Monitor) (s : Solver) : Prop := ∀ k, k < s.level → m.settled k = true

/-- A call that begins no level leaves the levels below as they were. -/
theorem Monitor.Tidy.next {m : Monitor} (tidy : m.Tidy s) (lower : s'.level ≤ s.level) :
    (m.next s s').Tidy s' := by
  intro k low
  have low : k < s.level := Nat.lt_of_lt_of_le low lower
  exact (Monitor.next_settled_below low).trans (tidy k low)

/-- A loop that begins one level at a time leaves quiet levels behind. -/
theorem Opened.tidy {m m' : Monitor} {n : Nat} (o : Opened s m 0 s' m' n) (tidy : m.Tidy s)
    (quiet : s.Quiet) (single : n ≤ 1) : m'.Tidy s' := by
  intro k low
  have level := o.level
  rcases Nat.lt_or_ge k s.level with below | here
  · exact (o.below k below).trans (tidy k below)
  · have same : k = s.level := by omega
    subst same
    exact (o.here (by omega)).mpr quiet

/-- The calls are carried out, and submit nothing.  If no two levels are begun at a time, they go
back to quiet levels only, and leave quiet levels behind. -/
structure Carried (single : Prop) (s : Solver) (m : Monitor) (cs : List Call) (s' : Solver)
    (m' : Monitor) : Prop where
  watched : s.watch m cs = some (s', m')
  silent : submitted cs = []
  clean : single → m.Tidy s → m.clean = true → m'.clean = true
  tidy : single → m.Tidy s → m'.Tidy s'

namespace Carried

variable {single : Prop} {m m₁ m' : Monitor} {s₁ : Solver} {cs ds : List Call}

/-- Calls are carried out one after the other. -/
theorem trans (a : Carried single s m cs s₁ m₁) (b : Carried single s₁ m₁ ds s' m') :
    Carried single s m (cs ++ ds) s' m' where
  watched := (watch_append a.watched).trans b.watched
  silent := submitted_append.trans (by rw [a.silent, b.silent, List.nil_append])
  clean on tidy clean := b.clean on (a.tidy on tidy) (a.clean on tidy clean)
  tidy on tidy := b.tidy on (a.tidy on tidy)

/-- A call that begins no level goes back to one of the quiet levels, or to none. -/
theorem call {c : Call} {reply : Reply} (silent : c.submits = false)
    (performed : s.perform 0 c = .ok (s', reply)) (lower : s'.level ≤ s.level) :
    Carried single s m [c] s' (m.next s s') where
  watched := watch_cons (addsAtRoot_of_silent silent) performed
  silent := submitted_of_silent silent
  clean _ tidy clean := Monitor.next_clean.mpr ⟨clean, fun _ back => tidy _ back⟩
  tidy _ tidy := tidy.next lower

/-- Decisions that are made when everything has been propagated. -/
theorem decisions {width left rest : Nat} (quiet : s.Quiet)
    (passed : Passed width left 0 s m cs rest s' m') : Carried (width = 1) s m cs s' m' where
  watched := passed.watched
  silent := passed.silent
  clean _ _ clean := passed.opened.clean.trans clean
  tidy single tidy := by
    have most := passed.most
    exact passed.opened.tidy tidy quiet (by omega)

end Carried

/-! ## The whole loop -/

/-- Everything has been propagated, and all variables are assigned. -/
structure Finished (s : Solver) : Prop where
  quiet : s.Quiet
  ok : s.ok = true
  known : ∀ i, i < s.numVars → s.Known i

/-- The loop carries its calls out.  If it ends with a model, it is finished. -/
theorem driveFrom_carried {m : Monitor} {width count left : Nat} {max : Option Nat}
    {answer : Truth} {cs : List Call} (wide : 0 < width) (run : Monitored options calls s m)
    (known : ∀ i, i < s.numVars - left → s.Known i)
    (h : driveFrom width max fuel count left s = .ok (s', answer, cs)) :
    ∃ m', Carried (width = 1) s m cs s' m' ∧ (answer = .holds → s'.Finished) := by
  induction fuel generalizing s calls m count left cs with
  | zero => cases h
  | succ fuel ih =>
      obtain ⟨⟨s₁, consistent⟩, propagated, h⟩ := bind_eq_ok.mp h
      obtain ⟨r₁, grows, settled⟩ := run.reaches.standing.propagate propagated
      have vars : s₁.numVars = s.numVars := grows.size
      have known₁ : ∀ i, i < s₁.numVars - left → s₁.Known i := by
        intro i low
        exact (known i (vars ▸ low)).mono fun l hl => grows.lits hl
      have performed : s.perform 0 .propagate = .ok (s₁, .flag consistent) :=
        bind_eq_ok.mpr ⟨_, propagated, rfl⟩
      have first : Carried (width = 1) s m [.propagate] s₁ (m.next s s₁) :=
        .call rfl performed (Nat.le_of_eq grows.level)
      have run₁ := run.watch first.watched
      cases consistent with
      | true =>
          obtain ⟨quiet, ok⟩ := settled rfl
          obtain ⟨⟨s₂, decisions, rest⟩, decided, h⟩ := bind_eq_ok.mp h
          obtain ⟨m₂, passed⟩ := decideSome_passed run₁ decided
          have known₂ : ∀ i, i < s₁.numVars - rest → s₂.Known i := by
            intro i low
            rcases Nat.lt_or_ge i (s₁.numVars - left) with old | new
            · exact (known₁ i old).mono passed.opened.lits
            · exact passed.known i new low
          cases decisions with
          | nil =>
              -- nothing was left to decide
              cases h
              have same := passed.opened.same rfl
              have none : rest = 0 := passed.all wide
              subst same none
              exact ⟨_, first, fun _ => ⟨quiet, ok, known₂⟩⟩
          | cons d ds =>
              obtain ⟨⟨s₃, answer₃, later⟩, driven, h⟩ := bind_eq_ok.mp h
              cases h
              have second := first.trans (.decisions quiet passed)
              obtain ⟨m', rest, finished⟩ :=
                ih (run.watch second.watched) (passed.opened.vars.symm ▸ known₂) driven
              exact ⟨m', second.trans rest, finished⟩
      | false =>
          obtain ⟨⟨s₂, ok⟩, resolved, h⟩ := bind_eq_ok.mp h
          obtain ⟨-, descends, -⟩ := r₁.resolveConflict (fun on => on.1.elim) resolved
          have performed₂ : s₁.perform 0 .resolveConflict = .ok (s₂, .flag ok) :=
            bind_eq_ok.mpr ⟨_, resolved, rfl⟩
          have second := first.trans (.call rfl performed₂ descends.level)
          simp only at h
          split at h
          next =>
            cases h
            exact ⟨_, second, nofun⟩
          next =>
            split at h
            next =>
              cases h
              exact ⟨_, second, nofun⟩
            next =>
              obtain ⟨⟨s₃, answer₃, later⟩, driven, h⟩ := bind_eq_ok.mp h
              cases h
              have fresh : ∀ i, i < s₂.numVars - s₂.numVars → s₂.Known i := fun i low => by omega
              obtain ⟨m', rest, finished⟩ := ih (run.watch second.watched) fresh driven
              exact ⟨m', second.trans rest, finished⟩

/-- In a clean run with clauses added at the root level, no clause that was submitted is
false when a propagation answers yes.  A search loop that ends with a model has assigned
all variables, and the clauses are satisfied if the calls that the loop made, too, went back
to quiet levels only; they do so if it begins one level at a time above quiet ones. -/
theorem driven_consistent {m : Monitor} (run : Monitored options calls s m)
    (clean : m.clean = true) :
    (∀ {fuel s'}, s.perform fuel .propagate = .ok (s', .flag true) →
      ∀ c ∈ submitted calls, ∃ l ∈ c, s'.litValue l ≠ .ok .fails) ∧
    (∀ {fuel width max s'}, 0 < width → s.drive fuel width max = .ok (s', .holds) →
      (∀ v : Var, v.index < s'.numVars → s'.value v ≠ .ok .unknown) ∧
        ∃ cs m', s.driveCalls fuel width max = .ok (s', .holds, cs) ∧
          s.watch m cs = some (s', m') ∧ Monitored options (calls ++ cs) s' m' ∧
          submitted cs = [] ∧
          (m'.clean = true ∨ (width = 1 ∧ m.Tidy s) →
            ∀ c ∈ submitted calls, ∃ l ∈ c, s'.litValue l = .ok .holds)) := by
  constructor
  · intro fuel s' performed c hc
    obtain ⟨⟨s₁, answer⟩, propagated, done⟩ := bind_eq_ok.mp performed
    cases done
    obtain ⟨r, -, settled⟩ := (run.ready clean).propagate propagated
    obtain ⟨quiet, ok⟩ := settled rfl
    have i := r.inv
    rw [quiet.2] at i
    exact (i.idle.settles ⟨trivial, ok⟩ quiet.1 hc).not_false i.net.wf.trail
  · intro fuel width max s' wide driven
    obtain ⟨⟨s₁, answer, cs⟩, driven, same⟩ := bind_eq_ok.mp driven
    cases same
    have assigned : ∀ i, i < s.numVars - s.numVars → s.Known i := fun i low => by omega
    obtain ⟨m', carried, finished⟩ := driveFrom_carried wide run assigned driven
    obtain ⟨quiet, ok, known⟩ := finished rfl
    have run' := run.watch carried.watched
    have w := run'.reaches.standing.inv.net.wf.trail
    have total : ∀ v : Var, v.index < s'.numVars → s'.value v ≠ .ok .unknown :=
      fun v inside => (known v.index inside).value_ne w
    refine ⟨total, cs, m', driven, carried.watched, run', carried.silent, fun quietly c hc => ?_⟩
    have clean' : m'.clean = true := quietly.elim id fun ⟨single, tidy⟩ =>
      carried.clean single tidy clean
    have more : c ∈ submitted (calls ++ cs) :=
      submitted_append ▸ List.mem_append_left _ hc
    exact (run'.settles clean' ok quiet c more).satisfied w total

/-- Carries calls out, with sorts that evaluate, and remembers what the levels were left
like. -/
def watchPlayed (m : Monitor) (s : Solver) : List Call → Option (Solver × Monitor)
  | [] => some (s, m)
  | c :: cs =>
      if s.AddsAtRoot c then
        match s.play 0 c with
        | .ok (s', _) => watchPlayed (m.next s s') s' cs
        | .error _ => none
      else
        none

/-- The sorts that evaluate make no difference to what is watched. -/
theorem watchPlayed_eq {m : Monitor} : s.watchPlayed m calls = s.watch m calls := by
  induction calls generalizing s m with
  | nil => rfl
  | cons c cs ih =>
      unfold watchPlayed watch
      rw [play_eq]
      split
      · cases s.perform 0 c with
        | error => rfl
        | ok made => exact ih
      · rfl

/-- A state that has been found by watching calls on a fresh solver is reached by a run. -/
theorem exists_monitored {good : Solver × Monitor → Prop}
    (found : ∃ s ∈ (create options false none).toOption,
      ∃ p ∈ s.watchPlayed .start calls, good p) :
    ∃ s m, Monitored options calls s m ∧ good (s, m) := by
  obtain ⟨s, created, ⟨s', m⟩, played, holds⟩ := found
  have fresh : Monitored options [] s .start := .fresh (eq_ok_of_toOption created)
  exact ⟨s', m, fresh.watch (watchPlayed_eq.symm.trans played), holds⟩

/-- Does a propagation answer yes? -/
def propagates (s : Solver) : Bool :=
  match s.perform 0 .propagate with
  | .ok (_, .flag true) => true
  | _ => false

/-- Two levels, begun one after the other with nothing propagated between them. -/
def twoLevels : List Call :=
  [.newVar {}, .newVar {}, .newVar {}, .newVar {}, .newVar {},
    .addClause [⟨⟨0⟩, true⟩, ⟨⟨2⟩, true⟩, ⟨⟨3⟩, true⟩],
    .addClause [⟨⟨3⟩, false⟩, ⟨⟨4⟩, true⟩], .addClause [⟨⟨3⟩, false⟩, ⟨⟨4⟩, false⟩],
    .decide ⟨⟨0⟩, true⟩, .decide ⟨⟨1⟩, false⟩]

/-- A loop that goes on from there, two levels at a time, meets a conflict above four levels.
It goes back to the root level, which was left quiet, and ends with a model three levels
above it. -/
theorem two_levels_consistent : ∃ s m s₁ s' cs m', Monitored {} twoLevels s m ∧
    m.clean = true ∧ s.level = 2 ∧ s.perform 0 .propagate = .ok (s₁, .flag true) ∧
    (∀ c ∈ submitted twoLevels, ∃ l ∈ c, s₁.litValue l ≠ .ok .fails) ∧
    s.drive 20 2 none = .ok (s', .holds) ∧ s.driveCalls 20 2 none = .ok (s', .holds, cs) ∧
    cs.map Call.begins =
      [false, true, true, false, false, false, true, true, false, true, false] ∧
    s.watch m cs = some (s', m') ∧ m'.clean = true ∧ s'.level = 3 ∧
    (∀ v : Var, v.index < s'.numVars → s'.value v ≠ .ok .unknown) ∧
    ∀ c ∈ submitted twoLevels, ∃ l ∈ c, s'.litValue l = .ok .holds := by
  have found : ∃ s ∈ (create {} false none).toOption, ∃ p ∈ s.watchPlayed .start twoLevels,
      (p.2.clean = true ∧ p.1.level = 2 ∧ p.1.propagates = true) ∧
      ∃ r ∈ (p.1.driveCalls 20 2 none).toOption, r.2.1 = .holds ∧
        r.2.2.map Call.begins =
          [false, true, true, false, false, false, true, true, false, true, false] ∧
        ∃ q ∈ p.1.watch p.2 r.2.2, q.2.clean = true ∧ q.1.level = 3 := by
    decide +kernel
  obtain ⟨s, m, run, ⟨clean, level, yes⟩, ⟨s', answer, cs⟩, looped, holds, begun, ⟨s₂, m'⟩,
    watched, clean', level'⟩ := exists_monitored found
  cases holds
  have looped := eq_ok_of_toOption looped
  have driven : s.drive 20 2 none = .ok (s', .holds) := bind_eq_ok.mpr ⟨_, looped, rfl⟩
  obtain ⟨consistent, model⟩ := driven_consistent run clean
  obtain ⟨total, ds, m₂, looped', watched', -, -, satisfied⟩ := model (by decide) driven
  cases looped.symm.trans looped'
  cases watched.symm.trans watched'
  unfold propagates at yes
  split at yes
  next s₁ performed =>
    exact ⟨s, m, s₁, s', cs, m', run, clean, level, performed, consistent performed, driven,
      looped, begun, watched, clean', level', total, satisfied (.inl clean')⟩
  next => cases yes

end Cdcl.Solver
