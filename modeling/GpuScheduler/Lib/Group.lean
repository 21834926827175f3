import Mathlib.Algebra.BigOperators.Group.List.Basic
import Mathlib.Algebra.Order.BigOperators.Group.List
import Mathlib.Data.List.Dedup

/-!
# Sums by group

Rows are grouped by a key, and the weights of each group are added up.  The sums of the groups add
up to the sum of all rows, whether the groups are those of the keys that occur (`groupBy`) or of any
list of different keys among which these are.
-/

namespace GpuScheduler.Lib

variable {ρ κ M : Type*} [DecidableEq κ] {key : ρ → κ} {w : ρ → M} {l : List ρ} {k : κ}

section Sums

variable [AddCommMonoid M]

omit [DecidableEq κ] in
/-- Rows that are left out count as nothing. -/
theorem sum_map_filter (p : ρ → Bool) (w : ρ → M) (l : List ρ) :
    ((l.filter p).map w).sum = (l.map fun r ↦ if p r then w r else 0).sum := by
  induction l with
  | nil => rfl
  | cons r l ih =>
      rw [List.filter_cons, List.map_cons, List.sum_cons, ← ih]
      split
      · rw [List.map_cons, List.sum_cons]
      · rw [zero_add]

/-- The sum of the rows with one key. -/
def groupSum (key : ρ → κ) (w : ρ → M) (l : List ρ) (k : κ) : M :=
  ((l.filter fun r ↦ key r = k).map w).sum

/-- The sums of the keys that occur. -/
def groupBy (key : ρ → κ) (w : ρ → M) (l : List ρ) : List (κ × M) :=
  (l.map key).dedup.map fun k ↦ (k, groupSum key w l k)

theorem groupSum_cons (r : ρ) :
    groupSum key w (r :: l) k = (if key r = k then w r else 0) + groupSum key w l k := by
  rw [groupSum, List.filter_cons]
  by_cases hr : key r = k
  · rw [if_pos (decide_eq_true hr), if_pos hr, List.map_cons, List.sum_cons]
    rfl
  · rw [if_neg (by simpa using hr), if_neg hr, zero_add]
    rfl

/-- A key that does not occur has nothing. -/
theorem groupSum_eq_zero (h : k ∉ l.map key) : groupSum key w l k = 0 := by
  induction l with
  | nil => rfl
  | cons r l ih =>
      rw [List.map_cons, List.mem_cons, not_or] at h
      rw [groupSum_cons, if_neg (Ne.symm h.1), zero_add]
      exact ih h.2

/-- Looking a key up finds its sum. -/
theorem lookup_groupBy (key : ρ → κ) (w : ρ → M) (l : List ρ) (k : κ) :
    ((groupBy key w l).lookup k).getD 0 = groupSum key w l k := by
  have hlookup : ∀ ks : List κ, ((ks.map fun k ↦ (k, groupSum key w l k)).lookup k) =
      if k ∈ ks then some (groupSum key w l k) else none := by
    intro ks
    induction ks with
    | nil => rfl
    | cons k' ks ih =>
        rw [List.map_cons, List.lookup_cons, ih]
        by_cases hk : k = k'
        · subst hk
          simp
        · simp [hk, beq_false_of_ne hk]
  rw [groupBy, hlookup]
  split
  · rfl
  · rename_i hk
    rw [List.mem_dedup] at hk
    exact (groupSum_eq_zero hk).symm

end Sums

/-- Looking a key up in a list of which the entries were changed. -/
theorem lookup_map_snd {N : Type*} (f : M → N) (l : List (κ × M)) (k : κ) :
    (l.map fun u ↦ (u.1, f u.2)).lookup k = (l.lookup k).map f := by
  induction l with
  | nil => rfl
  | cons u l ih =>
      rw [List.map_cons, List.lookup_cons, List.lookup_cons, ih]
      split
      · rfl
      · rfl

/-- **The groups add up to the whole.** -/
theorem sum_groupSum [AddCommGroup M] {ks : List κ} (hks : ks.Nodup) (hl : ∀ r ∈ l, key r ∈ ks) :
    (ks.map (groupSum key w l)).sum = (l.map w).sum := by
  induction l with
  | nil =>
      apply List.sum_eq_zero
      intro x hx
      obtain ⟨k, -, rfl⟩ := List.mem_map.mp hx
      rfl
  | cons r l ih =>
      rw [List.forall_mem_cons] at hl
      have hone : (ks.map fun k ↦ if k = key r then w r else 0).sum = w r := by
        rw [List.sum_map_ite_eq ks (fun _ ↦ w r) (fun _ ↦ 0), List.count_eq_one_of_mem hks hl.1,
          sub_zero, one_nsmul, List.map_const', List.sum_replicate, nsmul_zero, add_zero]
      calc (ks.map (groupSum key w (r :: l))).sum
          = (ks.map fun k ↦ (if k = key r then w r else 0) + groupSum key w l k).sum := by
            congr 2
            funext k
            rw [groupSum_cons]
            simp only [eq_comm]
        _ = w r + (l.map w).sum := by rw [List.sum_map_add, hone, ih hl.2]
        _ = ((r :: l).map w).sum := by rw [List.map_cons, List.sum_cons]

theorem sum_groupBy [AddCommGroup M] (key : ρ → κ) (w : ρ → M) (l : List ρ) :
    ((groupBy key w l).map Prod.snd).sum = (l.map w).sum := by
  rw [groupBy, List.map_map]
  apply sum_groupSum (List.nodup_dedup _)
  intro r hr
  exact List.mem_dedup.mpr (List.mem_map_of_mem hr)

section Order

variable [AddCommGroup M] [PartialOrder M] [IsOrderedAddMonoid M]

theorem groupSum_nonneg (hw : ∀ r ∈ l, 0 ≤ w r) (k : κ) : 0 ≤ groupSum key w l k := by
  apply List.sum_nonneg
  intro x hx
  obtain ⟨r, hr, rfl⟩ := List.mem_map.mp hx
  exact hw r (List.mem_filter.mp hr).1

/-- Without negative weights no group exceeds the whole. -/
theorem nonneg_le_of_mem_groupBy (hw : ∀ r ∈ l, 0 ≤ w r) {u : κ × M} (hu : u ∈ groupBy key w l) :
    0 ≤ u.2 ∧ u.2 ≤ (l.map w).sum := by
  have hall : ∀ x ∈ (groupBy key w l).map Prod.snd, 0 ≤ x := by
    intro x hx
    rw [groupBy, List.map_map] at hx
    obtain ⟨k, -, rfl⟩ := List.mem_map.mp hx
    exact groupSum_nonneg hw k
  refine ⟨hall u.2 (List.mem_map_of_mem hu), ?_⟩
  rw [← sum_groupBy key]
  exact List.single_le_sum hall u.2 (List.mem_map_of_mem hu)

end Order

end GpuScheduler.Lib
