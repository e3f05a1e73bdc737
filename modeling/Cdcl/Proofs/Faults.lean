import Cdcl.Fault
import Mathlib.Data.List.Forall2

/-!
# Computations over lists that may fail

What the library's loops over lists answer with, if no step of them fails.
-/

namespace Cdcl

variable {α β : Type}

theorem filterAuxM_eq_ok {f : α → Except Fault Bool} {l acc r : List α}
    (h : List.filterAuxM f l acc = .ok r) : ∃ l' : List α, r = l'.reverse ++ acc ∧
      l'.Sublist l ∧ (∀ a, a ∈ l' ↔ a ∈ l ∧ f a = .ok true) ∧
      ∀ a ∈ l, ∃ b, f a = .ok b := by
  induction l generalizing acc with
  | nil =>
      cases h
      exact ⟨[], rfl, .slnil, by simp, by simp⟩
  | cons a l ih =>
      obtain ⟨b, tested, h⟩ := bind_eq_ok.mp h
      obtain ⟨l', e, sub, mem, total⟩ := ih h
      have total' : ∀ x ∈ a :: l, ∃ b, f x = .ok b := by
        intro x hx
        rcases List.mem_cons.mp hx with rfl | hx
        · exact ⟨b, tested⟩
        · exact total x hx
      cases b with
      | false =>
          refine ⟨l', e, sub.cons a, fun x => ?_, total'⟩
          rw [mem, List.mem_cons]
          refine and_congr_left fun yes => ⟨.inr, fun inside => inside.resolve_left ?_⟩
          intro same
          subst same
          rw [tested] at yes
          cases yes
      | true =>
          refine ⟨a :: l', ?_, sub.cons_cons a, fun x => ?_, total'⟩
          · rw [e, List.reverse_cons, List.append_assoc]
            rfl
          · rw [List.mem_cons, List.mem_cons, mem]
            constructor
            · intro given
              rcases given with rfl | ⟨inside, yes⟩
              · exact ⟨.inl rfl, tested⟩
              · exact ⟨.inr inside, yes⟩
            · intro given
              rcases given with ⟨rfl | inside, yes⟩
              · exact .inl rfl
              · exact .inr ⟨inside, yes⟩

/-- Filtering keeps the elements that pass the test, in their order. -/
theorem filterM_eq_ok {f : α → Except Fault Bool} {l l' : List α}
    (h : l.filterM f = .ok l') : l'.Sublist l ∧
      (∀ a, a ∈ l' ↔ a ∈ l ∧ f a = .ok true) ∧ ∀ a ∈ l, ∃ b, f a = .ok b := by
  obtain ⟨r, walked, h⟩ := bind_eq_ok.mp h
  cases h
  obtain ⟨l', rfl, rest⟩ := filterAuxM_eq_ok walked
  rw [List.append_nil, List.reverse_reverse]
  exact rest

/-- Mapping answers with the results in order. -/
theorem mapM_eq_ok {f : α → Except Fault β} {l : List α} {l' : List β}
    (h : l.mapM f = .ok l') : List.Forall₂ (fun a b => f a = .ok b) l l' := by
  induction l generalizing l' with
  | nil =>
      cases h
      exact .nil
  | cons a l ih =>
      rw [List.mapM_cons] at h
      obtain ⟨b, made, h⟩ := bind_eq_ok.mp h
      obtain ⟨bs, rest, h⟩ := bind_eq_ok.mp h
      cases h
      exact .cons made (ih rest)

theorem mapM_mem_left {f : α → Except Fault β} {l : List α} {l' : List β}
    (h : l.mapM f = .ok l') {a : α} (inside : a ∈ l) : ∃ b ∈ l', f a = .ok b := by
  have rel := mapM_eq_ok h
  clear h
  induction rel with
  | nil => exact absurd inside List.not_mem_nil
  | cons made _ ih =>
      rcases List.mem_cons.mp inside with rfl | later
      · exact ⟨_, List.mem_cons_self, made⟩
      · obtain ⟨b, hb, made'⟩ := ih later
        exact ⟨b, List.mem_cons_of_mem _ hb, made'⟩

theorem mapM_mem_right {f : α → Except Fault β} {l : List α} {l' : List β}
    (h : l.mapM f = .ok l') {b : β} (inside : b ∈ l') : ∃ a ∈ l, f a = .ok b := by
  have rel := mapM_eq_ok h
  clear h
  induction rel with
  | nil => exact absurd inside List.not_mem_nil
  | cons made _ ih =>
      rcases List.mem_cons.mp inside with rfl | later
      · exact ⟨_, List.mem_cons_self, made⟩
      · obtain ⟨a, ha, made'⟩ := ih later
        exact ⟨a, List.mem_cons_of_mem _ ha, made'⟩

/-- Mapping succeeds if no step fails. -/
theorem exists_mapM {f : α → Except Fault β} {l : List α} (h : ∀ a ∈ l, ∃ b, f a = .ok b) :
    ∃ l', l.mapM f = .ok l' := by
  induction l with
  | nil => exact ⟨[], rfl⟩
  | cons a l ih =>
      obtain ⟨b, made⟩ := h a List.mem_cons_self
      obtain ⟨bs, rest⟩ := ih fun a' later => h a' (List.mem_cons_of_mem a later)
      exact ⟨b :: bs, by rw [List.mapM_cons, made, rest]; rfl⟩

end Cdcl
