import Mathlib.Algebra.Order.Group.Basic
import Mathlib.Algebra.Order.Group.MinMax
import Mathlib.Tactic.Abel

/-!
# Token buckets

A token bucket holds at most `cap`, and is filled at a steady rate.  We measure time by what has
flowed in since some beginning, so that between the readings `x` and `y` the inflow is `y - x`.  A
request takes `cost` from the bucket if it holds as much, and is refused otherwise.

The bucket remembers two numbers.  `draws_getElem?` says what they stand for: a request is granted
if and only if it stays within `cap` and the inflow in every window that it ends, counted from any
request before it.  `grantedIn_nsmul_le` bounds what is granted in an arbitrary window.
-/

namespace GpuScheduler.Lib

variable {M : Type*}

/-- The number of requests granted from the `i`-th up to just before the `j`-th. -/
def granted (ds : List Bool) (i j : ℕ) : ℕ := ((ds.take j).drop i).count true

@[simp] theorem granted_self (ds : List Bool) (i : ℕ) : granted ds i i = 0 := by
  simp [granted]

theorem granted_cons_succ_succ (d : Bool) (ds : List Bool) (i j : ℕ) :
    granted (d :: ds) (i + 1) (j + 1) = granted ds i j := rfl

theorem granted_cons_zero_succ (d : Bool) (ds : List Bool) (j : ℕ) :
    granted (d :: ds) 0 (j + 1) = granted ds 0 j + d.toNat := by
  cases d <;> simp [granted]

/-- The number of requests granted from the reading `lo` to the reading `hi`. -/
def grantedIn [LE M] [DecidableLE M] (lo hi : M) (xs : List M) (ds : List Bool) : ℕ :=
  (xs.zip ds).countP fun p ↦ p.2 && (lo ≤ p.1 && p.1 ≤ hi)

section GrantedIn

variable [LinearOrder M] {lo hi x : M} {xs : List M} {d : Bool} {ds : List Bool}

theorem grantedIn_cons_le :
    grantedIn lo hi (x :: xs) (d :: ds) ≤ grantedIn lo hi xs ds + d.toNat := by
  rw [grantedIn, List.zip_cons_cons, List.countP_cons]
  refine Nat.add_le_add_left ?_ _
  cases d <;> simp [apply_ite (· ≤ 1)]

theorem grantedIn_cons_of_lt (h : x < lo) :
    grantedIn lo hi (x :: xs) (d :: ds) = grantedIn lo hi xs ds := by
  simp [grantedIn, not_le.mpr h]

/-- Nothing is granted in a window that is over. -/
theorem grantedIn_eq_zero (hx : hi < x) (hsorted : (x :: xs).Pairwise (· ≤ ·)) :
    grantedIn lo hi (x :: xs) ds = 0 := by
  have hlate : ∀ y ∈ x :: xs, hi < y := by
    intro y hy
    rcases List.mem_cons.mp hy with rfl | hy
    · exact hx
    · exact hx.trans_le ((List.pairwise_cons.mp hsorted).1 y hy)
  refine List.countP_eq_zero.mpr fun p hp ↦ ?_
  simp [not_le.mpr (hlate p.1 (List.of_mem_zip hp).1)]

end GrantedIn

/-- A bucket, with its contents as of the last reading. -/
structure Bucket (M : Type*) where
  level : M
  last : M

namespace Bucket

variable [AddCommGroup M] [LinearOrder M]

/-- What the bucket holds at the reading `x`. -/
def fill (cap : M) (b : Bucket M) (x : M) : M := min cap (b.level + (x - b.last))

/-- A request at the reading `x`. -/
def draw (cap cost : M) (b : Bucket M) (x : M) : Bool × Bucket M :=
  if cost ≤ b.fill cap x then (true, ⟨b.fill cap x - cost, x⟩) else (false, ⟨b.fill cap x, x⟩)

/-- The answers to a sequence of requests. -/
def draws (cap cost : M) : Bucket M → List M → List Bool
  | _, [] => []
  | b, x :: xs => (b.draw cap cost x).1 :: draws cap cost (b.draw cap cost x).2 xs

variable {cap cost : M} {b : Bucket M} {x : M} {xs : List M}

theorem draw_fst : (b.draw cap cost x).1 = true ↔ cost ≤ b.fill cap x := by
  rw [draw]
  split <;> simp [*]

theorem level_draw :
    (b.draw cap cost x).2.level = b.fill cap x - (b.draw cap cost x).1.toNat • cost := by
  rw [draw]
  split
  · rw [Bool.toNat_true, one_nsmul]
  · rw [Bool.toNat_false, zero_nsmul, sub_zero]

theorem last_draw : (b.draw cap cost x).2.last = x := by
  rw [draw]
  split <;> rfl

variable [IsOrderedAddMonoid M]

/-- To go on with the bucket after a request is to stay within `cap` since that request, and within
what the bucket held before since it was last read. -/
theorem le_level_draw {n : ℕ} {y : M} :
    n • cost ≤ (b.draw cap cost x).2.level + (y - x) ↔
      (n + (b.draw cap cost x).1.toNat) • cost ≤ cap + (y - x) ∧
      (n + (b.draw cap cost x).1.toNat) • cost ≤ b.level + (y - b.last) := by
  have hfill : b.fill cap x + (y - x) = min (cap + (y - x)) (b.level + (y - b.last)) := by
    rw [fill, ← min_add_add_right, add_assoc, sub_add_sub_cancel']
  rw [level_draw, sub_add_eq_add_sub, le_sub_iff_add_le, ← add_nsmul, hfill, le_min_iff]

/-- **What a bucket decides.**  A request is granted if and only if what was granted before and its
own cost stay within the contents and the inflow since the bucket was last read, and within `cap`
and the inflow since any request before. -/
theorem draws_getElem? {j : ℕ} (hj : xs[j]? = some x) :
    (draws cap cost b xs)[j]? = some true ↔
      (granted (draws cap cost b xs) 0 j + 1) • cost ≤ b.level + (x - b.last) ∧
      ∀ i ≤ j, ∀ y, xs[i]? = some y →
        (granted (draws cap cost b xs) i j + 1) • cost ≤ cap + (x - y) := by
  -- along the requests, with the bucket as each of them leaves it
  induction xs generalizing b j with
  | nil => cases hj
  | cons z xs ih =>
      rw [draws]
      cases j with
      | zero =>
          obtain rfl : z = x := Option.some.inj hj
          rw [List.getElem?_cons_zero, Option.some.injEq, draw_fst, fill, le_min_iff, and_comm]
          rw [granted_self, zero_add, one_nsmul]
          refine and_congr_right fun _ ↦ ⟨fun hcap i hi y hy ↦ ?_, fun h ↦ ?_⟩
          · obtain rfl := Nat.le_zero.mp hi
            obtain rfl : z = y := Option.some.inj hy
            rwa [granted_self, zero_add, one_nsmul, sub_self, add_zero]
          · have hself := h 0 le_rfl z rfl
            rwa [granted_self, zero_add, one_nsmul, sub_self, add_zero] at hself
      | succ j =>
          rw [List.getElem?_cons_succ, ih hj, last_draw, le_level_draw, granted_cons_zero_succ,
            and_comm (a := _ ≤ cap + _), and_assoc, add_right_comm]
          refine and_congr_right fun _ ↦ ⟨fun h i hi y hy ↦ ?_, fun h ↦ ⟨?_, fun i hi y hy ↦ ?_⟩⟩
          · cases i with
            | zero =>
                obtain rfl : z = y := Option.some.inj hy
                rw [granted_cons_zero_succ]
                exact h.1
            | succ i =>
                rw [granted_cons_succ_succ]
                exact h.2 i (Nat.le_of_succ_le_succ hi) y hy
          · rw [← granted_cons_zero_succ]
            exact h 0 (Nat.zero_le _) z rfl
          · rw [← granted_cons_succ_succ]
            exact h (i + 1) (Nat.succ_le_succ hi) y hy

/-- A bucket that is full to begin with. -/
theorem draws_getElem?_of_full {last : M} (hlast : ∀ y ∈ xs, last ≤ y) {j : ℕ}
    (hj : xs[j]? = some x) :
    (draws cap cost ⟨cap, last⟩ xs)[j]? = some true ↔ ∀ i ≤ j, ∀ y, xs[i]? = some y →
      (granted (draws cap cost ⟨cap, last⟩ xs) i j + 1) • cost ≤ cap + (x - y) := by
  refine (draws_getElem? hj).trans (and_iff_right_of_imp fun h ↦ ?_)
  cases xs with
  | nil => cases hj
  | cons z xs =>
      -- the window that begins with the first request is the narrower one
      refine (h 0 (Nat.zero_le j) z rfl).trans ?_
      gcongr
      exact hlast z List.mem_cons_self

/-! ## Windows -/

theorem fill_nonneg (hcap : 0 ≤ cap) (hlevel : 0 ≤ b.level) (hx : b.last ≤ x) :
    0 ≤ b.fill cap x := le_min hcap (add_nonneg hlevel (sub_nonneg.mpr hx))

/-- A bucket is never overdrawn. -/
theorem level_draw_nonneg (hcap : 0 ≤ cap) (hlevel : 0 ≤ b.level) (hx : b.last ≤ x) :
    0 ≤ (b.draw cap cost x).2.level := by
  rw [draw]
  split
  · exact sub_nonneg.mpr ‹_›
  · exact fill_nonneg hcap hlevel hx

/-- What is granted until `hi` was in the bucket, or has flowed in since. -/
theorem grantedIn_nsmul_le_level {lo hi : M} (hcap : 0 ≤ cap) (hcost : 0 ≤ cost)
    (hlevel : 0 ≤ b.level) (hlast : b.last ≤ hi) (hxs : (b.last :: xs).Pairwise (· ≤ ·)) :
    grantedIn lo hi xs (draws cap cost b xs) • cost ≤ b.level + (hi - b.last) := by
  induction xs generalizing b with
  | nil => simpa [grantedIn] using add_nonneg hlevel (sub_nonneg.mpr hlast)
  | cons x xs ih =>
      obtain ⟨hle, hsorted⟩ := List.pairwise_cons.mp hxs
      rcases le_or_gt x hi with hx | hx
      · have hrest := ih (b := (b.draw cap cost x).2)
          (level_draw_nonneg hcap hlevel (hle x List.mem_cons_self)) (by rwa [last_draw])
          (by rwa [last_draw])
        rw [last_draw] at hrest
        exact (nsmul_le_nsmul_left hcost grantedIn_cons_le).trans (le_level_draw.mp hrest).2
      · rw [grantedIn_eq_zero hx hsorted, zero_nsmul]
        exact add_nonneg hlevel (sub_nonneg.mpr hlast)

/-- **No window grants more than the bucket can hold and the inflow.** -/
theorem grantedIn_nsmul_le {lo hi : M} (hcap : 0 ≤ cap) (hcost : 0 ≤ cost) (hlevel : 0 ≤ b.level)
    (hxs : (b.last :: xs).Pairwise (· ≤ ·)) (hwindow : lo ≤ hi) :
    grantedIn lo hi xs (draws cap cost b xs) • cost ≤ cap + (hi - lo) := by
  induction xs generalizing b with
  | nil => simpa [grantedIn] using add_nonneg hcap (sub_nonneg.mpr hwindow)
  | cons x xs ih =>
      obtain ⟨hle, hsorted⟩ := List.pairwise_cons.mp hxs
      have hlevel' : 0 ≤ (b.draw cap cost x).2.level :=
        level_draw_nonneg hcap hlevel (hle x List.mem_cons_self)
      rcases lt_or_ge x lo with hlo | hlo
      · rw [draws, grantedIn_cons_of_lt hlo]
        exact ih hlevel' (by rwa [last_draw])
      · rcases le_or_gt x hi with hx | hx
        · have hrest : grantedIn lo hi xs (draws cap cost (b.draw cap cost x).2 xs) • cost ≤
              (b.draw cap cost x).2.level + (hi - (b.draw cap cost x).2.last) :=
            grantedIn_nsmul_le_level hcap hcost hlevel' (by rwa [last_draw]) (by rwa [last_draw])
          rw [last_draw] at hrest
          refine (nsmul_le_nsmul_left hcost grantedIn_cons_le).trans ?_
          refine (le_level_draw.mp hrest).1.trans ?_
          gcongr
        · rw [grantedIn_eq_zero hx hsorted, zero_nsmul]
          exact add_nonneg hcap (sub_nonneg.mpr hwindow)

end Bucket

end GpuScheduler.Lib
