import Mathlib.Algebra.Order.BigOperators.Group.List
import Mathlib.Algebra.Order.Group.MinMax
import Mathlib.Tactic.Abel

/-!
# Counters with a ceiling

A counter with ceiling `c` keeps track of a quantity `S` that is lent out, so it should show
`c - S`.  A credit raises the counter but never beyond the ceiling.  A credit is *owed* when the
quantity it returns was still lent out, and given *again* when it had been returned before.

An owed credit keeps a right counter right; one given again makes it show too much, and the
ceiling hides exactly the excess over what is still lent out.  `settle_excess` follows the excess
through any sequence of credits: the counter is right at the end if and only if nothing is lent
out any more, or it was right at the start and nothing was credited again.
-/

namespace GpuScheduler.Lib

variable {M : Type*} [AddCommGroup M] [LinearOrder M] [IsOrderedAddMonoid M]

/-- A quantity returned to a counter. -/
structure Credit (M : Type*) where
  amount : M
  /-- Whether the quantity had been returned before. -/
  again : Bool

/-- Raise a counter by each credit in turn, never beyond the ceiling. -/
def settle (c : M) : M → List (Credit M) → M
  | a, [] => a
  | a, k :: ks => settle c (min c (a + k.amount)) ks

/-- What a sequence of credits really returns. -/
def owed (ks : List (Credit M)) : M := (ks.map fun k ↦ if k.again then 0 else k.amount).sum

omit [LinearOrder M] [IsOrderedAddMonoid M] in
@[simp] theorem owed_nil : owed ([] : List (Credit M)) = 0 := rfl

omit [LinearOrder M] [IsOrderedAddMonoid M] in
@[simp] theorem owed_cons (k : Credit M) (ks : List (Credit M)) :
    owed (k :: ks) = (if k.again then 0 else k.amount) + owed ks := by
  simp [owed]

theorem owed_nonneg {ks : List (Credit M)} (h : ∀ k ∈ ks, 0 ≤ k.amount) : 0 ≤ owed ks := by
  refine List.sum_nonneg fun x hx ↦ ?_
  obtain ⟨k, hk, rfl⟩ := List.mem_map.mp hx
  split
  · exact le_rfl
  · exact h k hk

/-- An owed credit of `r`: the excess survives as far as something is still lent out. -/
theorem min_add_owed (c S e r : M) : min c (c - S + e + r) = c - (S - r) + min e (S - r) := by
  have hc : c = c - (S - r) + (S - r) := by abel
  have ha : c - S + e + r = c - (S - r) + e := by abel
  rw [ha]
  nth_rewrite 1 [hc]
  rw [min_add_add_left, min_comm]

/-- A credit of `r` given again: the excess grows by `r`, up to what is lent out. -/
theorem min_add_again (c S e r : M) : min c (c - S + e + r) = c - S + min (e + r) S := by
  have hc : c = c - S + S := by abel
  rw [add_assoc]
  nth_rewrite 1 [hc]
  rw [min_add_add_left, min_comm]

omit [IsOrderedAddMonoid M] in
/-- The smaller of two nonnegative quantities vanishes when one of them does. -/
theorem min_eq_zero_iff {a b : M} (ha : 0 ≤ a) (hb : 0 ≤ b) : min a b = 0 ↔ a = 0 ∨ b = 0 := by
  constructor
  · intro h
    rcases min_choice a b with hm | hm
    · exact .inl (hm ▸ h)
    · exact .inr (hm ▸ h)
  · rintro (rfl | rfl)
    · exact min_eq_left hb
    · exact min_eq_right ha

/-- **The excess of a counter after a sequence of credits.** -/
theorem settle_excess {c S e : M} {ks : List (Credit M)} (hks : ∀ k ∈ ks, 0 ≤ k.amount)
    (he : 0 ≤ e) (heS : e ≤ S) (hS : owed ks ≤ S) :
    ∃ e', settle c (c - S + e) ks = c - (S - owed ks) + e' ∧ 0 ≤ e' ∧ e' ≤ S - owed ks ∧
      (e' = 0 ↔ S - owed ks = 0 ∨ (e = 0 ∧ ∀ k ∈ ks, k.again = true → k.amount = 0)) := by
  induction ks generalizing S e with
  | nil =>
      refine ⟨e, by simp [settle], he, by simpa using heS, ?_⟩
      simp only [owed_nil, sub_zero, List.not_mem_nil, false_imp_iff, implies_true, and_true]
      exact ⟨.inr, fun h ↦ h.elim (fun h ↦ le_antisymm (h ▸ heS) he) id⟩
  | cons k ks ih =>
      have hk : 0 ≤ k.amount := hks k List.mem_cons_self
      have hks' : ∀ k ∈ ks, 0 ≤ k.amount := fun x hx ↦ hks x (List.mem_cons_of_mem k hx)
      have howed : 0 ≤ owed ks := owed_nonneg hks'
      cases hag : k.again with
      | false =>
          simp only [owed_cons, hag, Bool.false_eq_true, if_false] at hS ⊢
          have hrest : owed ks ≤ S - k.amount := le_sub_iff_add_le'.mpr hS
          have hS' : 0 ≤ S - k.amount := howed.trans hrest
          obtain ⟨e', hset, h0, h1, hiff⟩ := ih hks' (le_min he hS') (min_le_right e (S - k.amount))
            hrest
          refine ⟨e', ?_, h0, by rwa [← sub_sub], ?_⟩
          · rw [settle, min_add_owed, hset, sub_sub]
          · rw [hiff, min_eq_zero_iff he hS', sub_sub]
            -- when nothing is lent out after this credit, nothing is at the end
            have hzero : S - k.amount = 0 → S - (k.amount + owed ks) = 0 := fun h ↦ by
              have : owed ks = 0 := le_antisymm (h ▸ hrest) howed
              rw [this, add_zero, h]
            simp only [List.forall_mem_cons, hag, Bool.false_eq_true, false_imp_iff, true_and]
            constructor
            · rintro (hend | ⟨he0 | hS0, hall⟩)
              · exact .inl hend
              · exact .inr ⟨he0, hall⟩
              · exact .inl (hzero hS0)
            · rintro (hend | ⟨he0, hall⟩)
              · exact .inl hend
              · exact .inr ⟨.inl he0, hall⟩
      | true =>
          simp only [owed_cons, hag, if_true, zero_add] at hS ⊢
          obtain ⟨e', hset, h0, h1, hiff⟩ := ih hks'
            (le_min (add_nonneg he hk) (howed.trans hS)) (min_le_right (e + k.amount) S) hS
          refine ⟨e', by rw [settle, min_add_again, hset], h0, h1, ?_⟩
          rw [hiff, min_eq_zero_iff (add_nonneg he hk) (howed.trans hS),
            add_eq_zero_iff_of_nonneg he hk]
          have hzero : S = 0 → S - owed ks = 0 := fun h ↦ by
            have : owed ks = 0 := le_antisymm (h ▸ hS) howed
            rw [this, h, sub_zero]
          simp only [List.forall_mem_cons, hag, true_imp_iff]
          constructor
          · rintro (hend | ⟨⟨he0, hk0⟩ | hS0, hall⟩)
            · exact .inl hend
            · exact .inr ⟨he0, hk0, hall⟩
            · exact .inl (hzero hS0)
          · rintro (hend | ⟨he0, hk0, hall⟩)
            · exact .inl hend
            · exact .inr ⟨.inl ⟨he0, hk0⟩, hall⟩

end GpuScheduler.Lib
