import Cdcl.Restart
import Cdcl.Proofs.Success
import Mathlib.Algebra.GroupWithZero.Nat

/-!
# The lengths of rounds

A round has a length for every place of the Luby sequence that can be counted in a signed
word.  The segment that is grown for a place has a size of one less than a power of two, so
doubling it stays within the word; and halving it again, with the remainder of the place,
follows the recurrence of the sequence.

* `IsLuby.unique` — the recurrence has one entry for a place;
* `segment_covers` — the segment that is found for a place;
* `entry_isLuby` — the entry that is found in a segment;
* `interval_follows_luby` — the length of a round.
-/

namespace Cdcl.Restart

variable {x e e' k size exponent : Nat}

/-! ## The sequence -/

/-- An entry is the last of its segment, or it is repeated from before. -/
theorem IsLuby.inversion (h : IsLuby x e) :
    (x + 2 = 2 ^ (e + 1)) ∨
      ∃ k, 2 ^ k ≤ x + 1 ∧ x + 2 < 2 ^ (k + 1) ∧ IsLuby (x + 1 - 2 ^ k) e := by
  cases h with
  | last k =>
      have double : 2 ^ (e + 1) = 2 * 2 ^ e := Nat.pow_succ'
      have positive := Nat.two_pow_pos e
      refine .inl ?_
      change 2 ^ (e + 1) - 2 + 2 = _
      omega
  | @again _ k _ low high earlier =>
      have low : 2 ^ k - 1 ≤ x := low
      have high : x < 2 ^ (k + 1) - 2 := high
      have positive := Nat.two_pow_pos k
      refine .inr ⟨k, by omega, by omega, ?_⟩
      have same : x - (2 ^ k - 1) = x + 1 - 2 ^ k := by omega
      exact same ▸ earlier

/-- A number lies between two powers of two only. -/
theorem eq_of_between {m j k : Nat} (low : 2 ^ j ≤ m) (high : m < 2 ^ (j + 1))
    (low' : 2 ^ k ≤ m) (high' : m < 2 ^ (k + 1)) : j = k := by
  have positive : m ≠ 0 := Nat.ne_of_gt (Nat.lt_of_lt_of_le (Nat.two_pow_pos j) low)
  have left := (Nat.log2_eq_iff positive).mpr ⟨low, high⟩
  have right := (Nat.log2_eq_iff positive).mpr ⟨low', high'⟩
  exact left.symm.trans right

theorem IsLuby.unique (h : IsLuby x e) (h' : IsLuby x e') : e = e' := by
  induction x using Nat.strongRecOn generalizing e e' with
  | ind x ih =>
    have double : ∀ k, 2 ^ (k + 1) = 2 * 2 ^ k := fun _ => Nat.pow_succ'
    have positive : ∀ k, 0 < 2 ^ k := Nat.two_pow_pos
    -- the last place of a segment lies between the same powers as the places before it
    rcases h.inversion with last | ⟨k, low, high, earlier⟩
    · have := double e
      have := positive e
      rcases h'.inversion with last' | ⟨j, low, high, -⟩
      · have := double e'
        have := positive e'
        exact eq_of_between (m := x + 1) (by omega) (by omega) (by omega) (by omega)
      · have same : e = j :=
          eq_of_between (m := x + 1) (by omega) (by omega) low (by omega)
        subst same
        omega
    · rcases h'.inversion with last' | ⟨j, low', high', earlier'⟩
      · have := double e'
        have := positive e'
        have same : e' = k :=
          eq_of_between (m := x + 1) (by omega) (by omega) low (by omega)
        subst same
        omega
      · have same : k = j := eq_of_between low (by omega) low' (by omega)
        subst same
        have := positive k
        exact ih _ (by omega) earlier earlier'

/-- Before its last place, a segment is one of half its size twice over. -/
theorem IsLuby.of_mod {half : Nat} (shape : half + 1 = 2 ^ k) (before : x < 2 * half)
    (h : IsLuby (x % half) e) : IsLuby x e := by
  by_cases first : x < half
  · rwa [Nat.mod_eq_of_lt first] at h
  · have behind : half ≤ x := Nat.le_of_not_lt first
    have rest : x % half = x - half := by
      rw [Nat.mod_eq_sub_mod behind, Nat.mod_eq_of_lt (by omega)]
    have start : half = 2 ^ k - 1 := by omega
    have double : 2 ^ (k + 1) = 2 * 2 ^ k := Nat.pow_succ'
    rw [rest, start] at h
    refine .again (k := k) ?_ ?_ h
    · change 2 ^ k - 1 ≤ x
      omega
    · change x < 2 ^ (k + 1) - 2
      omega

/-! ## The two loops -/

/-- A segment is grown until it covers the place; no segment on the way is too large. -/
theorem segment_covers (shape : size + 1 = 2 ^ (exponent + 1)) (inRange : x + 1 < placeSpan) :
    ∃ size' exponent', segment x size exponent = .ok (size', exponent') ∧
      size' + 1 = 2 ^ (exponent' + 1) ∧ x < size' := by
  induction size, exponent using segment.induct x with
  | case1 size exponent covers room ih =>
      rw [segment, if_pos covers, if_pos room]
      refine ih ?_
      rw [Nat.pow_succ]
      omega
  | case2 size exponent covers full =>
      -- a power of two below the bound of the word is at most the half of it
      have span : placeSpan = 2 ^ 31 := rfl
      have below : 2 ^ (exponent + 1) < 2 ^ 31 := by omega
      have lower : exponent + 1 < 31 := (Nat.pow_lt_pow_iff_right (by omega)).mp below
      have half : 2 ^ (exponent + 1) ≤ 2 ^ 30 := Nat.pow_le_pow_right (by omega) (by omega)
      omega
  | case3 size exponent done =>
      rw [segment, if_neg done]
      exact ⟨size, exponent, rfl, shape, Nat.lt_of_not_le done⟩

/-- A place of a segment that is not its last one lies in one of two halves. -/
theorem entry_isLuby (shape : size + 1 = 2 ^ (exponent + 1)) (low : x < size) :
    ∃ e, entry size exponent x = .ok e ∧ IsLuby x e := by
  induction exponent generalizing size x with
  | zero =>
      have last : size = x + 1 := by omega
      have first : x = 0 := by omega
      subst first
      exact ⟨0, by rw [entry, if_pos last], .last 0⟩
  | succ exponent ih =>
      by_cases last : size = x + 1
      · have place : x = 2 ^ (exponent + 1 + 1) - 2 := by omega
        exact ⟨exponent + 1, by rw [entry, if_pos last], place ▸ .last (exponent + 1)⟩
      · have half : (size - 1) / 2 + 1 = 2 ^ (exponent + 1) := by
          rw [Nat.pow_succ] at shape
          omega
        have positive : 0 < (size - 1) / 2 := by
          rw [Nat.pow_succ] at half
          have power := Nat.two_pow_pos exponent
          omega
        obtain ⟨e, found, here⟩ := ih half (Nat.mod_lt x positive)
        refine ⟨e, ?_, here.of_mod half (by omega)⟩
        rw [entry, if_neg last, if_neg (Nat.ne_of_gt positive)]
        exact bind_eq_ok.mpr ⟨exponent, rfl, found⟩

theorem lubyExponent_isLuby (inRange : x + 1 < placeSpan) :
    ∃ e, lubyExponent x = .ok e ∧ IsLuby x e := by
  have start : 1 + 1 = 2 ^ (0 + 1) := rfl
  obtain ⟨size, exponent, covered, shape, low⟩ := segment_covers start inRange
  obtain ⟨e, found, here⟩ := entry_isLuby shape low
  refine ⟨e, ?_, here⟩
  rw [lubyExponent, if_pos inRange]
  exact bind_eq_ok.mpr ⟨_, covered, found⟩

/-! ## The lengths -/

theorem failsOnly_interval {f : Fault → Prop} {luby : Bool} {factor : Float}
    (width : f .widthExceeded) : FailsOnly f (interval luby factor x) := by
  refine .ite (fun _ => .bind ?_ fun _ _ => .ok _) fun _ => .ok _
  by_cases inRange : x + 1 < placeSpan
  · obtain ⟨e, found, -⟩ := lubyExponent_isLuby inRange
    exact .of_eq found
  · rw [lubyExponent, if_neg inRange]
    exact .throw width

/-- Every place that can be counted has one entry of the Luby sequence.  The loops find it
without a fault, and the length of the round is the power of the factor with that exponent. -/
theorem interval_follows_luby (factor : Float) (inRange : x + 1 < placeSpan) :
    ∃ e, (∀ e', IsLuby x e' ↔ e' = e) ∧ lubyExponent x = .ok e ∧
      interval true factor x = .ok (power factor e) := by
  obtain ⟨e, found, here⟩ := lubyExponent_isLuby inRange
  refine ⟨e, fun e' => ⟨fun other => other.unique here, ?_⟩, found, ?_⟩
  · rintro rfl
    exact here
  · exact bind_eq_ok.mpr ⟨e, found, rfl⟩

/-- The last place but one lies in the greatest segment, and is the last one of its half. -/
theorem last_place_but_one_follows_luby : 2147483645 + 1 < placeSpan ∧
    lubyExponent 2147483645 = .ok 29 ∧
      interval true 2.0 2147483645 = .ok (power 2.0 29) := by
  have inRange : 2147483645 + 1 < placeSpan := by decide
  have here : IsLuby 2147483645 29 := .again (k := 30) (by decide) (by decide) (.last 29)
  obtain ⟨e, only, found, length⟩ := interval_follows_luby 2.0 inRange
  cases (only 29).mp here
  exact ⟨inRange, found, length⟩

example : (List.range 15).map (fun x => (lubyExponent x).toOption) =
    [0, 0, 1, 0, 0, 1, 2, 0, 0, 1, 0, 0, 1, 2, 3].map some := by
  decide +kernel

end Cdcl.Restart
