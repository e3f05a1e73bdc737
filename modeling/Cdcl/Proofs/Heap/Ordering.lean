import Cdcl.Proofs.Success.Heap
import Mathlib.Order.Defs.Unbundled

/-!
# The order in a heap

Where the comparison decides a strict weak order, no key belongs strictly above the one over
it.  While a key is on its way through the heap this is broken around one position.  The
keys are then looked at as a `Row` in which the key already stands at the hole, so that a
move of the hole is an exchange of two keys; `Rising` and `Sinking` say what the row has to
be like around the hole, depending on where the key is going.

* `Rising.exchange`, `Rising.settled` — a key that changes places with the one over it, and
  the end of its way up; `Sinking.exchange` and `Sinking.settled` the same downwards;
* `ordered_siftUp`, `settled_siftDown` — the loops;
* `Ordered.not_lt_top` — the key on top, and `ordered_insert`, `ordered_rise`, `ordered_pop`,
  `ordered_build` — the operations.
-/

namespace Cdcl.Heap

variable {κ : Type} {lt lt' : κ → κ → Prop} {n i j c : Nat}
  {k above below : κ}

/-! ## Rows of keys -/

/-- The keys by position. -/
abbrev Row (κ : Type) := Nat → Option κ

/-- Two keys change places. -/
def Row.exchange (row : Row κ) (i j : Nat) : Row κ := fun x =>
  if x = i then row j else if x = j then row i else row x

variable {row : Row κ}

/-- No key belongs strictly above the key over it, if that one stands at `n` or after it. -/
def Settled (lt : κ → κ → Prop) (n : Nat) (row : Row κ) : Prop :=
  ∀ (j : Nat) (a b : κ), 0 < j → n ≤ parent j → row j = some a → row (parent j) = some b →
    ¬lt a b

/-- The row is in order but for the key at `i`, which may have to go up. -/
structure Rising (lt : κ → κ → Prop) (row : Row κ) (i : Nat) : Prop where
  apart : ∀ {j : Nat} {a b : κ}, 0 < j → j ≠ i → row j = some a → row (parent j) = some b →
    ¬lt a b
  across : ∀ {j : Nat} {a b : κ}, 0 < i → 0 < j → parent j = i → row j = some a →
    row (parent i) = some b → ¬lt a b

/-- From `n` on the row is in order but for the key at `i`, which may have to go down. -/
structure Sinking (lt : κ → κ → Prop) (n : Nat) (row : Row κ) (i : Nat) : Prop where
  apart : ∀ {j : Nat} {a b : κ}, 0 < j → n ≤ parent j → parent j ≠ i → row j = some a →
    row (parent j) = some b → ¬lt a b
  across : ∀ {j : Nat} {a b : κ}, 0 < i → n ≤ parent i → 0 < j → parent j = i →
    row j = some a → row (parent i) = some b → ¬lt a b

theorem parent_lt (positive : 0 < i) : parent i < i := by
  unfold parent
  omega

/-- The positions below a position. -/
theorem eq_left_or_right (positive : 0 < j) (under : parent j = i) : j = left i ∨ j = right i := by
  unfold parent at under
  unfold left right
  omega

namespace Row

@[simp] theorem exchange_left : row.exchange i j i = row j := if_pos rfl

theorem exchange_right (ne : i ≠ j) : row.exchange i j j = row i := by
  unfold exchange
  rw [if_neg ne.symm, if_pos rfl]

theorem exchange_of_ne {x : Nat} (first : x ≠ i) (second : x ≠ j) :
    row.exchange i j x = row x := by
  unfold exchange
  rw [if_neg first, if_neg second]

end Row

section Order

variable [IsStrictWeakOrder κ lt]

/-- What is no higher than a key is no higher than what that key is no higher than. -/
theorem not_lt_trans {a b c : κ} (first : ¬lt a b) (second : ¬lt b c) : ¬lt a c := by
  intro between
  have notBelow : ¬lt b a := fun upper => second (trans_of lt upper between)
  have notAbove : ¬lt c b := fun upper => first (trans_of lt between upper)
  exact (IsStrictWeakOrder.incomp_trans a b c ⟨first, notBelow⟩ ⟨second, notAbove⟩).1 between

namespace Rising

/-- The key goes up, and the one that was over it comes down. -/
theorem exchange (o : Rising lt row i) (low : 0 < i) (key : row i = some k)
    (upper : row (parent i) = some above) (higher : lt k above) :
    Rising lt (row.exchange i (parent i)) (parent i) := by
  have up : parent i < i := parent_lt low
  constructor
  · intro j a b positive ne readA readB
    by_cases moved : j = i
    · subst moved
      rw [Row.exchange_left, upper] at readA
      rw [Row.exchange_right (Nat.ne_of_gt up), key] at readB
      cases readA
      cases readB
      exact asymm_of lt higher
    · rw [Row.exchange_of_ne moved ne] at readA
      by_cases under : parent j = i
      · rw [under, Row.exchange_left, upper] at readB
        exact o.across low positive under readA (upper.trans readB)
      · by_cases beside : parent j = parent i
        · rw [beside, Row.exchange_right (Nat.ne_of_gt up), key] at readB
          cases readB
          have notOver := o.apart positive moved readA (beside ▸ upper)
          exact fun h => notOver (trans_of lt h higher)
        · rw [Row.exchange_of_ne under beside] at readB
          exact o.apart positive moved readA readB
  · intro j a b inner positive under readA readB
    have up' : parent (parent i) < parent i := parent_lt inner
    rw [Row.exchange_of_ne (Nat.ne_of_lt (Nat.lt_trans up' up)) (Nat.ne_of_lt up')] at readB
    have notOver : ¬lt above b := o.apart inner (Nat.ne_of_lt up) upper readB
    by_cases moved : j = i
    · subst moved
      rw [Row.exchange_left, upper] at readA
      cases readA
      exact notOver
    · have deeper : parent j < j := parent_lt positive
      rw [Row.exchange_of_ne moved (by omega)] at readA
      exact not_lt_trans (o.apart positive moved readA (under ▸ upper)) notOver

omit [IsStrictWeakOrder κ lt] in
/-- The key has found its place. -/
theorem settled (o : Rising lt row i) (key : row i = some k)
    (stands : ∀ b, 0 < i → row (parent i) = some b → ¬lt k b) : Settled lt 0 row := by
  intro j a b positive _ readA readB
  by_cases moved : j = i
  · subst moved
    cases key.symm.trans readA
    exact stands b positive readB
  · exact o.apart positive moved readA readB

end Rising

namespace Sinking

/-- The key goes down, and the higher one of those under it comes up. -/
theorem exchange (o : Sinking lt n row i) (high : n ≤ i) (positive : 0 < c) (under : parent c = i)
    (key : row i = some k) (child : row c = some below) (higher : lt below k)
    (first : ∀ {j : Nat} {a : κ}, 0 < j → parent j = i → row j = some a → ¬lt a below) :
    Sinking lt n (row.exchange i c) c := by
  have down : i < c := under ▸ parent_lt positive
  constructor
  · intro j a b positive' late ne readA readB
    by_cases child' : parent j = i
    · rw [child', Row.exchange_left, child] at readB
      cases readB
      by_cases moved : j = c
      · subst moved
        rw [Row.exchange_right (Nat.ne_of_lt down), key] at readA
        cases readA
        exact asymm_of lt higher
      · have deeper : parent j < j := parent_lt positive'
        rw [Row.exchange_of_ne (by omega) moved] at readA
        exact first positive' child' readA
    · rw [Row.exchange_of_ne child' ne] at readB
      by_cases hole : j = i
      · subst hole
        rw [Row.exchange_left, child] at readA
        cases readA
        exact o.across positive' late positive under child readB
      · have other : j ≠ c := fun same => child' (same ▸ under)
        rw [Row.exchange_of_ne hole other] at readA
        exact o.apart positive' late child' readA readB
  · intro j a b _ _ positive' under' readA readB
    rw [under, Row.exchange_left, child] at readB
    cases readB
    have deeper : parent j < j := parent_lt positive'
    rw [Row.exchange_of_ne (by omega) (by omega)] at readA
    exact o.apart positive' (by omega) (by omega) readA (under' ▸ child)

omit [IsStrictWeakOrder κ lt] in
/-- The key has found its place. -/
theorem settled (o : Sinking lt n row i) (key : row i = some k)
    (stands : ∀ {j : Nat} {a : κ}, 0 < j → parent j = i → row j = some a → ¬lt a k) :
    Settled lt n row := by
  intro j a b positive late readA readB
  by_cases child : parent j = i
  · rw [child, key] at readB
    cases readB
    exact stands positive child readA
  · exact o.apart positive late child readA readB

end Sinking

end Order

/-! ## Sifting -/

/-- The comparison answers for any two keys of `m`, and it decides `lt` for them. -/
structure Decides [DenseKey κ] (less : Less κ) (lt : κ → κ → Prop) (m : κ → Prop) : Prop where
  answers : Comparable (fun _ => False) less m
  iff : ∀ {a b : κ} {yes : Bool}, m a → m b → less a b = .ok yes → (yes = true ↔ lt a b)

theorem Decides.mono [DenseKey κ] {less : Less κ} {m m' : κ → Prop} (d : Decides less lt m)
    (sub : ∀ k, m' k → m k) : Decides less lt m' where
  answers a b ha hb := d.answers a b (sub a ha) (sub b hb)
  iff ha hb := d.iff (sub _ ha) (sub _ hb)

/-- The keys of a heap in which `k` stands at `i`. -/
def withKey (h : Heap κ) (i : Nat) (k : κ) : Row κ := fun j =>
  if j = i then some k else h.keys[j]?

variable {h h' : Heap κ}

@[simp] theorem withKey_self : h.withKey i k i = some k := if_pos rfl

theorem withKey_of_ne (ne : j ≠ i) : h.withKey i k j = h.keys[j]? := if_neg ne

theorem withKey_eq (there : h.keys[i]? = some k) : h.withKey i k = fun j => h.keys[j]? := by
  funext j
  unfold withKey
  split
  next same => rw [same, there]
  next => rfl

/-- A heap is in order if its row is settled from the top on. -/
theorem ordered_iff : h.Ordered lt ↔ Settled lt 0 fun j => h.keys[j]? :=
  ⟨fun o j a b positive _ => o j a b positive,
    fun o j a b positive => o j a b positive (Nat.zero_le _)⟩

variable [DenseKey κ] [LawfulKey κ] [DecidableEq κ] {less : Less κ} {m : κ → Prop}

/-- Placing a key fills the hole with it. -/
theorem keys_place (written : h.place i k = .ok h') : (fun j => h'.keys[j]?) = h.withKey i k := by
  funext j
  apply Option.ext
  intro k'
  rw [getElem?_place written, withKey]
  split
  next same => simp [same, eq_comm]
  next ne => simp [ne]

/-- The hole goes to where `above` stands. -/
theorem withKey_place (written : h.place i above = .ok h') (there : h.keys[j]? = some above)
    (ne : j ≠ i) : h'.withKey j k = (h.withKey i k).exchange i j := by
  have read : ∀ x, h'.keys[x]? = h.withKey i above x := congrFun (keys_place written)
  funext x
  unfold Row.exchange
  split
  next first => rw [first, withKey_of_ne ne.symm, read, withKey_self, withKey_of_ne ne, there]
  next first =>
    split
    next second => rw [second, withKey_self, withKey_self]
    next second =>
      rw [withKey_of_ne second, withKey_of_ne first, read, withKey_of_ne first]

variable [IsStrictWeakOrder κ lt]

/-- A key that goes up leaves the heap in order. -/
theorem ordered_siftUp (s : h.Sifting i k m) (d : Decides less lt m)
    (o : Rising lt (h.withKey i k) i) (done : siftUp less h k i = .ok h') : h'.Ordered lt := by
  induction i using Nat.strongRecOn generalizing h with
  | ind i ih =>
    unfold siftUp at done
    split at done
    next top =>
      rw [ordered_iff, keys_place done]
      exact o.settled withKey_self fun b low => absurd top (Nat.ne_of_gt low)
    next low =>
      have low : 0 < i := Nat.pos_of_ne_zero low
      have up : parent i < i := parent_lt low
      obtain ⟨above, read, done⟩ := bind_eq_ok.mp done
      obtain ⟨yes, compared, done⟩ := bind_eq_ok.mp done
      have there := key_eq_ok.mp read
      have upper : h.withKey i k (parent i) = some above :=
        (withKey_of_ne (Nat.ne_of_lt up)).trans there
      have decided := d.iff s.mem_self (s.mem_of_ne (Nat.ne_of_lt up) there) compared
      split at done
      next higher =>
        obtain ⟨h₁, written, done⟩ := bind_eq_ok.mp done
        refine ih _ up (s.move there (Nat.ne_of_lt up) written) ?_ done
        rw [withKey_place written there (Nat.ne_of_lt up)]
        exact o.exchange low withKey_self upper (decided.mp higher)
      next lower =>
        rw [ordered_iff, keys_place done]
        refine o.settled withKey_self fun b _ upper' => ?_
        cases upper.symm.trans upper'
        exact fun higher => lower (decided.mpr higher)

omit [LawfulKey κ] [DecidableEq κ] in
/-- The key that is preferred among those under a position is no lower than the other. -/
theorem not_lt_preferred {toRight : Bool} (s : h.Sifting i k m) (d : Decides less lt m)
    (chosen : prefersRight less h i = .ok toRight)
    (child : h.keys[if toRight = true then right i else left i]? = some below) {j : Nat} {a : κ}
    (positive : 0 < j) (under : parent j = i) (there : h.withKey i k j = some a) :
    ¬lt a below := by
  have deeper : i < j := under ▸ parent_lt positive
  rw [withKey_of_ne (Nat.ne_of_gt deeper)] at there
  have member : ∀ {x : Nat} {b : κ}, i < x → h.keys[x]? = some b → m b := fun deeper at_ =>
    s.mem_of_ne (Nat.ne_of_gt deeper) at_
  have rightOf : i < right i := by
    unfold right
    omega
  have leftOf : i < left i := by
    unfold left
    omega
  unfold prefersRight at chosen
  split at chosen
  next inside =>
    obtain ⟨second, readR, chosen⟩ := bind_eq_ok.mp chosen
    obtain ⟨first, readL, chosen⟩ := bind_eq_ok.mp chosen
    have atR := key_eq_ok.mp readR
    have atL := key_eq_ok.mp readL
    have decided := d.iff (member rightOf atR) (member leftOf atL) chosen
    cases toRight with
    | true =>
        have higher : lt second first := decided.mp rfl
        cases atR.symm.trans child
        rcases eq_left_or_right positive under with rfl | rfl
        · cases atL.symm.trans there
          exact asymm_of lt higher
        · cases child.symm.trans there
          exact irrefl_of lt _
    | false =>
        cases atL.symm.trans child
        rcases eq_left_or_right positive under with rfl | rfl
        · cases child.symm.trans there
          exact irrefl_of lt _
        · cases atR.symm.trans there
          exact fun higher => nomatch decided.mpr higher
  next outside =>
    cases chosen
    rcases eq_left_or_right positive under with rfl | rfl
    · cases child.symm.trans there
      exact irrefl_of lt _
    · exact absurd (Array.getElem?_eq_some_iff.mp there).1 outside

/-- A key that goes down leaves the row in order from `n` on.  The hole moves away from `n`, so that
what is in order behind it stays so. -/
theorem settled_siftDown (s : h.Sifting i k m) (d : Decides less lt m) (high : n ≤ i)
    (o : Sinking lt n (h.withKey i k) i) (done : siftDown less h.size h k i = .ok h') :
    Settled lt n fun j => h'.keys[j]? := by
  induction away : h.size - i using Nat.strongRecOn generalizing h i with
  | ind x ih =>
    unfold siftDown at done
    split at done
    next inside =>
      obtain ⟨toRight, chosen, done⟩ := bind_eq_ok.mp done
      obtain ⟨below, read, done⟩ := bind_eq_ok.mp done
      obtain ⟨yes, compared, done⟩ := bind_eq_ok.mp done
      have there := key_eq_ok.mp read
      have first : ∀ {j : Nat} {a : κ}, 0 < j → parent j = i → h.withKey i k j = some a →
          ¬lt a below := not_lt_preferred s d chosen there
      generalize place : (if toRight = true then right i else left i) = c at done there
      have position : 0 < c ∧ parent c = i ∧ i < c := by
        unfold parent left right at *
        split at place <;> omega
      obtain ⟨positive, under, down⟩ := position
      have child : h.withKey i k c = some below := (withKey_of_ne (Nat.ne_of_gt down)).trans there
      have decided := d.iff (s.mem_of_ne (Nat.ne_of_gt down) there) s.mem_self compared
      split at done
      next higher =>
        obtain ⟨h₁, written, done⟩ := bind_eq_ok.mp done
        have size : h₁.size = h.size := size_place written
        rw [← size] at done
        refine ih (h₁.size - c) ?_ (s.move there (Nat.ne_of_gt down) written)
          (Nat.le_trans high (Nat.le_of_lt down)) ?_ done rfl
        · unfold left at inside
          omega
        · rw [withKey_place written there (Nat.ne_of_gt down)]
          exact o.exchange high positive under withKey_self child (decided.mp higher) first
      next lower =>
        rw [keys_place done]
        refine o.settled withKey_self fun positive under at_ => ?_
        exact not_lt_trans (first positive under at_) fun higher => lower (decided.mpr higher)
    next outside =>
      rw [keys_place done]
      refine o.settled withKey_self fun {j a} positive under at_ => ?_
      have deeper : parent j < j := parent_lt positive
      rw [withKey_of_ne (by omega)] at at_
      have within := (Array.getElem?_eq_some_iff.mp at_).1
      rcases eq_left_or_right positive under with rfl | rfl
      · exact absurd within outside
      · unfold left size right at *
        omega

/-! ## The operations -/

omit [DenseKey κ] [LawfulKey κ] [DecidableEq κ] in
/-- No key belongs strictly above the one on top. -/
theorem Ordered.not_lt_top {top : κ} (o : h.Ordered lt) (first : h.keys[0]? = some top)
    (there : h.keys[i]? = some k) : ¬lt k top := by
  induction i using Nat.strongRecOn generalizing k with
  | ind i ih =>
    rcases Nat.eq_zero_or_pos i with rfl | low
    · cases first.symm.trans there
      exact irrefl_of lt _
    · have up : parent i < i := parent_lt low
      have inside : i < h.keys.size := (Array.getElem?_eq_some_iff.mp there).1
      have upper := Array.getElem?_eq_getElem (Nat.lt_trans up inside)
      exact not_lt_trans (o i _ _ low there upper) (ih (parent i) up upper)

/-- A heap in which a key sinks is in order from that key on, if it was so behind it. -/
theorem settled_sink (w : h.Holds m) (d : Decides less lt m)
    (o : Settled lt (i + 1) fun j => h.keys[j]?) (done : h.sink less i = .ok h') :
    Settled lt i fun j => h'.keys[j]? := by
  obtain ⟨k, read, done⟩ := bind_eq_ok.mp done
  have there := key_eq_ok.mp read
  refine settled_siftDown (w.sifting there) d (Nat.le_refl i) ?_ done
  rw [withKey_eq there]
  constructor
  · intro j a b positive late ne readA readB
    exact o j a b positive (by omega) readA readB
  · intro j a b low late
    have up : parent i < i := parent_lt low
    omega

/-- A new key rises until the heap is in order. -/
theorem ordered_insert (w : h.Holds m) (d : Decides less lt fun k' => k' = k ∨ m k')
    (o : h.Ordered lt) (done : h.insert less k = .ok h') : h'.Ordered lt := by
  obtain ⟨h₁, keys, sifting, done⟩ := w.insert_cases done
  refine ordered_siftUp sifting d ?_ done
  have old : ∀ {j : Nat}, j ≠ h.keys.size → h₁.withKey h.keys.size k j = h.keys[j]? := by
    intro j ne
    rw [withKey_of_ne ne, keys, Array.getElem?_push, if_neg ne]
  have low : ∀ {j : Nat} {a : κ}, h.keys[j]? = some a → j < h.keys.size := fun there =>
    (Array.getElem?_eq_some_iff.mp there).1
  constructor
  · intro j a b positive ne readA readB
    rw [old ne] at readA
    have up : parent j < j := parent_lt positive
    have inside := low readA
    rw [old (by omega)] at readB
    exact o j a b positive readA readB
  · intro j a b _ positive under readA
    have up : parent j < j := parent_lt positive
    rw [old (by omega)] at readA
    have inside := low readA
    omega

/-- The order has changed for the key `k` of `m` only: no other key has come strictly
above it. -/
structure Raises (lt lt' : κ → κ → Prop) (m : κ → Prop) (k : κ) : Prop where
  others : ∀ {a b : κ}, m a → m b → a ≠ k → b ≠ k → (lt' a b ↔ lt a b)
  upper : ∀ {a : κ}, m a → lt' a k → lt a k

/-- If only one key may have to go up, letting it rise puts the heap in order. -/
theorem ordered_rise [IsStrictWeakOrder κ lt'] (w : h.Holds m) (d : Decides less lt' m)
    (raised : Raises lt lt' m k) (o : h.Ordered lt) (done : h.rise less k = .ok h') :
    h'.Ordered lt' := by
  obtain ⟨i, there, done⟩ := w.rise_cases done
  have member : ∀ {j : Nat} {a : κ}, h.keys[j]? = some a → m a := fun at_ =>
    (w.mem _).mpr ⟨_, at_⟩
  have other : ∀ {j : Nat} {a : κ}, h.keys[j]? = some a → j ≠ i → a ≠ k := by
    intro j a at_ ne same
    subst same
    exact ne (w.unique at_ there)
  refine ordered_siftUp (w.sifting there) d ?_ done
  rw [withKey_eq there]
  constructor
  · intro j a b positive ne readA readB above
    refine o j a b positive readA readB ?_
    by_cases under : parent j = i
    · subst under
      cases there.symm.trans readB
      exact raised.upper (member readA) above
    · exact (raised.others (member readA) (member readB) (other readA ne)
        (other readB under)).mp above
  · intro j a b low positive under readA readB above
    have down : parent j < j := parent_lt positive
    have up : parent i < i := parent_lt low
    have notOver : ¬lt a k := o j a k positive readA (under ▸ there)
    refine not_lt_trans notOver (o i k b low there readB) ?_
    exact (raised.others (member readA) (member readB) (other readA (by omega))
      (other readB (Nat.ne_of_lt up))).mp above

/-- Popping keeps the heap in order, and no key belongs strictly above the one that comes out. -/
theorem ordered_pop {top : Option κ} (w : h.Holds m) (d : Decides less lt m)
    (o : h.Ordered lt) (done : h.pop less = .ok (h', top)) :
    h'.Ordered lt ∧ ∀ k k', top = some k → m k' → ¬lt k' k := by
  rcases w.pop_cases done with ⟨-, rfl, rfl⟩ | ⟨k, h₁, rfl, first, holds, -, kept, sunk⟩
  · exact ⟨o, nofun⟩
  · constructor
    · rcases sunk with ⟨alone, rfl⟩ | sunk
      · intro j a b positive readA
        have inside := (Array.getElem?_eq_some_iff.mp readA).1
        omega
      · refine ordered_iff.mpr (settled_sink holds (d.mono fun _ => And.left) ?_ sunk)
        intro j a b positive late readA readB
        exact o j a b positive (kept j a positive readA) (kept (parent j) b late readB)
    · intro k' b same mem
      cases same
      obtain ⟨i, there⟩ := (w.mem b).mp mem
      exact o.not_lt_top first there

/-- By induction over the positions, the row is settled from one more position on. -/
theorem settled_heapify (w : h.Holds m) (d : Decides less lt m)
    (o : Settled lt n fun j => h.keys[j]?) (done : h.heapify less n = .ok h') :
    h'.Ordered lt := by
  induction n generalizing h with
  | zero =>
      cases done
      exact ordered_iff.mpr o
  | succ n ih =>
      obtain ⟨h₁, sunk, done⟩ := bind_eq_ok.mp done
      exact ih (holds_sink w sunk).1 (settled_sink w d o sunk) done

/-- A heap that has been built is in order. -/
theorem ordered_build {ks : List κ} (w : h.Holds m) (once : ks.Nodup)
    (d : Decides less lt (· ∈ ks)) (done : h.build less ks = .ok h') : h'.Ordered lt := by
  obtain ⟨h₁, w₁, done⟩ := w.build_cases once done
  -- The second half of a heap has nothing under it.
  have leaves : Settled lt (h₁.size / 2) fun j => h₁.keys[j]? := by
    intro j a b positive late readA
    have inside : j < h₁.size := (Array.getElem?_eq_some_iff.mp readA).1
    unfold parent at late
    omega
  exact settled_heapify w₁ d leaves done

end Cdcl.Heap
