import Mathlib.Algebra.BigOperators.Group.List.Basic
import Mathlib.Algebra.Order.BigOperators.Group.List
import Mathlib.Algebra.Order.Field.Basic
import Mathlib.Tactic.Linarith
import Mathlib.Tactic.Ring

/-!
# How thinly a quantity is spread

A quantity is held in parts, of which some may be empty.  Its *spread* is the fraction of it that
lies outside the largest part, or nothing when there is nothing to be spread.  With `k` parts that
are not empty, the spread lies between 0 and `1 - 1 / k`: it is 0 when `k ≤ 1` and only then, and it
is as large as it can be when the `k` parts are equal and only then.  Taking from another part to
add to the largest lowers it.
-/

namespace GpuScheduler.Lib

variable {K : Type*} [Field K] [LinearOrder K]

/-- The largest part. -/
def largest (xs : List K) : K := xs.foldl max 0

/-- The number of parts that are not empty. -/
def holders (xs : List K) : ℕ := xs.countP fun x ↦ 0 < x

/-- The fraction of the whole that lies outside the largest part. -/
def spread (xs : List K) : K := if xs.sum = 0 then 0 else 1 - largest xs / xs.sum

variable {xs ys : List K}

/-! ## The largest part -/

omit [Field K] in
theorem foldl_max_le_iff {b c : K} : xs.foldl max b ≤ c ↔ b ≤ c ∧ ∀ x ∈ xs, x ≤ c := by
  induction xs generalizing b with
  | nil => simp
  | cons x xs ih =>
      rw [List.foldl_cons, ih, max_le_iff, List.forall_mem_cons]
      exact and_assoc

theorem largest_le_iff {c : K} : largest xs ≤ c ↔ 0 ≤ c ∧ ∀ x ∈ xs, x ≤ c := foldl_max_le_iff

theorem largest_nonneg (xs : List K) : 0 ≤ largest xs := (largest_le_iff.mp le_rfl).1

theorem le_largest {x : K} (hx : x ∈ xs) : x ≤ largest xs := (largest_le_iff.mp le_rfl).2 x hx

omit [Field K] in
theorem foldl_max_mem (xs : List K) (b : K) : xs.foldl max b = b ∨ xs.foldl max b ∈ xs := by
  induction xs generalizing b with
  | nil => exact Or.inl rfl
  | cons x xs ih =>
      rw [List.foldl_cons]
      rcases ih (max b x) with heq | hin
      · rcases max_choice b x with hmax | hmax
        · exact Or.inl (heq.trans hmax)
        · rw [heq, hmax]
          exact Or.inr List.mem_cons_self
      · exact Or.inr (List.mem_cons_of_mem x hin)

/-- The largest part is one of the parts, if it is not empty. -/
theorem largest_mem_of_pos (h : 0 < largest xs) : largest xs ∈ xs := by
  rcases foldl_max_mem xs 0 with heq | hin
  · exact absurd heq h.ne'
  · exact hin

theorem largest_perm (h : ys.Perm xs) : largest ys = largest xs := by
  apply le_antisymm
  · rw [largest_le_iff]
    exact ⟨largest_nonneg xs, fun x hx ↦ le_largest (h.mem_iff.mp hx)⟩
  · rw [largest_le_iff]
    exact ⟨largest_nonneg ys, fun x hx ↦ le_largest (h.mem_iff.mpr hx)⟩

/-- The order of the parts does not matter. -/
theorem spread_perm (h : ys.Perm xs) : spread ys = spread xs := by
  rw [spread, spread, h.sum_eq, largest_perm h]

/-- Some part is not empty. -/
theorem holders_pos_iff : 0 < holders xs ↔ ∃ x ∈ xs, 0 < x := by
  rw [holders, List.countP_pos_iff]
  simp only [decide_eq_true_eq]

/-! ## The whole between the largest part and `k` times the largest part -/

variable [IsStrictOrderedRing K]

/-- The whole is at most what it would be if all the parts that are not empty had size `c`. -/
theorem sum_le_holders_mul {c : K} (hc : ∀ x ∈ xs, x ≤ c) : xs.sum ≤ holders xs * c := by
  induction xs with
  | nil => simp [holders]
  | cons x xs ih =>
      rw [List.forall_mem_cons] at hc
      have htail := ih hc.2
      rw [List.sum_cons, holders, List.countP_cons, ← holders]
      by_cases hx : 0 < x
      · rw [if_pos (decide_eq_true hx)]
        push_cast
        linarith [hc.1]
      · rw [if_neg (by simpa using hx)]
        push_cast
        linarith

/-- It is as much only when they have. -/
theorem sum_eq_holders_mul_iff {c : K} (hxs : ∀ x ∈ xs, 0 ≤ x) (hc : ∀ x ∈ xs, x ≤ c) :
    xs.sum = holders xs * c ↔ ∀ x ∈ xs, 0 < x → x = c := by
  induction xs with
  | nil => simp [holders]
  | cons x xs ih =>
      rw [List.forall_mem_cons] at hxs hc
      have htail := sum_le_holders_mul hc.2
      rw [List.forall_mem_cons, ← ih hxs.2 hc.2, List.sum_cons, holders, List.countP_cons,
        ← holders]
      by_cases hx : 0 < x
      · rw [if_pos (decide_eq_true hx)]
        push_cast
        constructor
        · intro heq
          refine ⟨fun _ ↦ ?_, ?_⟩ <;> linarith [hc.1]
        · rintro ⟨hxc, heq⟩
          linarith [hxc hx]
      · rw [if_neg (by simpa using hx)]
        have hzero : x = 0 := le_antisymm (not_lt.mp hx) hxs.1
        simp [hzero]

section Nonneg

variable (hxs : ∀ x ∈ xs, 0 ≤ x)

include hxs

theorem largest_le_sum : largest xs ≤ xs.sum := by
  rw [largest_le_iff]
  exact ⟨List.sum_nonneg hxs, fun x hx ↦ List.single_le_sum hxs x hx⟩

theorem sum_eq_zero_iff_holders : xs.sum = 0 ↔ holders xs = 0 := by
  constructor
  · intro hsum
    by_contra hne
    obtain ⟨x, hx, hpos⟩ := holders_pos_iff.mp (Nat.pos_of_ne_zero hne)
    exact (hpos.trans_le (List.single_le_sum hxs x hx)).ne' hsum
  · intro hnone
    have hle := sum_le_holders_mul fun x (hx : x ∈ xs) ↦ le_largest hx
    rw [hnone, Nat.cast_zero, zero_mul] at hle
    exact le_antisymm hle (List.sum_nonneg hxs)

/-- The largest part is the whole when there is no other, and only then. -/
theorem largest_eq_sum_iff : largest xs = xs.sum ↔ holders xs ≤ 1 := by
  constructor
  · intro heq
    rcases (largest_nonneg xs).eq_or_lt with hzero | hpos
    · have hsum : xs.sum = 0 := heq.symm.trans hzero.symm
      rw [(sum_eq_zero_iff_holders hxs).mp hsum]
      exact Nat.zero_le 1
    · -- apart from the largest part nothing is left
      have hperm := List.perm_cons_erase (largest_mem_of_pos hpos)
      have hrest : ∀ x ∈ xs.erase (largest xs), 0 ≤ x := fun x hx ↦ hxs x (List.mem_of_mem_erase hx)
      have hsum := hperm.sum_eq
      rw [List.sum_cons, ← heq, left_eq_add, sum_eq_zero_iff_holders hrest] at hsum
      rw [holders, hperm.countP_eq, List.countP_cons, ← holders, hsum]
      split <;> decide
  · intro hone
    apply le_antisymm (largest_le_sum hxs)
    calc xs.sum ≤ holders xs * largest xs := sum_le_holders_mul fun x ↦ le_largest
      _ ≤ 1 * largest xs := by
        apply mul_le_mul_of_nonneg_right _ (largest_nonneg xs)
        exact_mod_cast hone
      _ = largest xs := one_mul _

/-! ## The spread -/

theorem spread_nonneg : 0 ≤ spread xs := by
  rw [spread]
  split
  · exact le_rfl
  · have hle : largest xs / xs.sum ≤ 1 :=
      div_le_one_of_le₀ (largest_le_sum hxs) (List.sum_nonneg hxs)
    linarith

/-- Nothing is spread when at most one part is not empty, and only then. -/
theorem spread_eq_zero_iff : spread xs = 0 ↔ holders xs ≤ 1 := by
  rw [← largest_eq_sum_iff hxs, spread]
  split
  · rename_i hsum
    rw [hsum]
    refine ⟨fun _ ↦ le_antisymm ?_ (largest_nonneg xs), fun _ ↦ rfl⟩
    exact hsum ▸ largest_le_sum hxs
  · rename_i hsum
    rw [sub_eq_zero, eq_comm, div_eq_one_iff_eq hsum]

theorem sum_pos_of_holders (hk : 0 < holders xs) : 0 < xs.sum := by
  apply lt_of_le_of_ne (List.sum_nonneg hxs)
  intro hsum
  exact hk.ne' ((sum_eq_zero_iff_holders hxs).mp hsum.symm)

/-- With `k` parts the spread is at most `1 - 1 / k`. -/
theorem spread_le (hk : 0 < holders xs) : spread xs ≤ 1 - 1 / holders xs := by
  have hsum := sum_pos_of_holders hxs hk
  have hkpos : (0 : K) < holders xs := by exact_mod_cast hk
  rw [spread, if_neg hsum.ne', sub_le_sub_iff_left, div_le_div_iff₀ hkpos hsum, one_mul, mul_comm]
  exact sum_le_holders_mul fun x ↦ le_largest

/-- It is as large when the parts are equal, and only then. -/
theorem spread_eq_iff (hk : 0 < holders xs) :
    spread xs = 1 - 1 / holders xs ↔ ∀ x ∈ xs, ∀ y ∈ xs, 0 < x → 0 < y → x = y := by
  have hsum := sum_pos_of_holders hxs hk
  have hkpos : (0 : K) < holders xs := by exact_mod_cast hk
  have hlargest : spread xs = 1 - 1 / holders xs ↔ ∀ x ∈ xs, 0 < x → x = largest xs := by
    rw [← sum_eq_holders_mul_iff hxs fun x ↦ le_largest, spread, if_neg hsum.ne', sub_right_inj,
      div_eq_div_iff hsum.ne' hkpos.ne', one_mul, mul_comm, eq_comm]
  rw [hlargest]
  constructor
  · intro h x hx y hy hxpos hypos
    rw [h x hx hxpos, h y hy hypos]
  · intro h x hx hxpos
    have hpos : 0 < largest xs := hxpos.trans_le (le_largest hx)
    exact h x hx _ (largest_mem_of_pos hpos) hxpos hpos

/-- **Consolidation**: taking `d` from part `j` to add it to the largest part `i`. -/
theorem spread_shift_lt {i j : ℕ} {a b d : K} (ha : xs[i]? = some a) (hb : xs[j]? = some b)
    (hij : i ≠ j) (hmax : ∀ x ∈ xs, x ≤ a) (hd : 0 < d) (hle : d ≤ b) :
    spread ((xs.set i (a + d)).set j (b - d)) < spread xs := by
  obtain ⟨hi, rfl⟩ := List.getElem?_eq_some_iff.mp ha
  obtain ⟨hj, rfl⟩ := List.getElem?_eq_some_iff.mp hb
  have hsum : 0 < xs.sum :=
    (hd.trans_le hle).trans_le (List.single_le_sum hxs _ (List.getElem_mem hj))
  have hsum' : ((xs.set i (xs[i] + d)).set j (xs[j] - d)).sum = xs.sum := by
    rw [List.sum_set', List.sum_set', dif_pos hi, dif_pos (by simpa using hj),
      List.getElem_set_ne hij]
    ring
  have hlargest : largest xs + d ≤ largest ((xs.set i (xs[i] + d)).set j (xs[j] - d)) := by
    have hold : largest xs ≤ xs[i] :=
      largest_le_iff.mpr ⟨hxs _ (List.getElem_mem hi), hmax⟩
    have hnew : xs[i] + d ∈ (xs.set i (xs[i] + d)).set j (xs[j] - d) := by
      rw [List.mem_iff_getElem]
      exact ⟨i, by simpa using hi, by rw [List.getElem_set_ne hij.symm, List.getElem_set_self]⟩
    have hge := le_largest hnew
    linarith
  rw [spread, spread, hsum', if_neg hsum.ne', if_neg hsum.ne', sub_lt_sub_iff_left,
    div_lt_div_iff_of_pos_right hsum]
  linarith

end Nonneg

end GpuScheduler.Lib
