import Mathlib.Algebra.BigOperators.Group.Finset.Piecewise
import Mathlib.Algebra.Order.BigOperators.Group.Finset
import Mathlib.Data.Finset.Max

/-!
# Trading up

The elements of a finite set `U` are ranked.  A collection of them *trades up* when it takes in one
element and gives up, if anything at all, elements of strictly lower rank.  However many of these it
gives up, and although they may come back later, this cannot go on for ever: an element counts for
more than all elements of lower rank together (`worth_below_lt`), so that the `worth` of the
collection grows with every trade, and it stays below `2 ^ U.card`.
-/

namespace GpuScheduler.Lib

variable {α β : Type*} [LinearOrder β] (rank : α → β) (U : Finset α)

/-- The elements of lower rank. -/
def below (x : α) : Finset α := {y ∈ U | rank y < rank x}

/-- What an element counts for. -/
def weight (x : α) : ℕ := 2 ^ (below rank U x).card

/-- What a collection is worth. -/
def worth (s : Finset α) : ℕ := ∑ x ∈ s, weight rank U x

variable {rank U}

theorem mem_below {x y : α} : y ∈ below rank U x ↔ y ∈ U ∧ rank y < rank x := Finset.mem_filter

theorem worth_mono {s t : Finset α} (h : s ⊆ t) : worth rank U s ≤ worth rank U t :=
  Finset.sum_le_sum_of_subset h

variable [DecidableEq α]

/-- A collection that contains with each element all elements of lower rank. -/
theorem worth_lt_of_closed {s : Finset α} (h : ∀ x ∈ s, below rank U x ⊆ s) :
    worth rank U s < 2 ^ s.card := by
  -- the elements are added in the order of their ranks
  induction s using Finset.induction_on_max_value rank with
  | empty => simp [worth]
  | insert a s ha hmax ih =>
      have hnot : ∀ x ∈ insert a s, a ∉ below rank U x := by
        intro x hx hbelow
        have hlt := (mem_below.mp hbelow).2
        rcases Finset.mem_insert.mp hx with rfl | hx
        · exact lt_irrefl _ hlt
        · exact not_lt_of_ge (hmax x hx) hlt
      have hsub : ∀ x ∈ insert a s, below rank U x ⊆ s := by
        intro x hx y hy
        refine (Finset.mem_insert.mp (h x hx hy)).resolve_left ?_
        rintro rfl
        exact hnot x hx hy
      have hrest : worth rank U s < 2 ^ s.card :=
        ih fun x hx ↦ hsub x (Finset.mem_insert_of_mem hx)
      have hweight : weight rank U a ≤ 2 ^ s.card :=
        Nat.pow_le_pow_right Nat.two_pos
          (Finset.card_le_card (hsub a (Finset.mem_insert_self a s)))
      have hsum : worth rank U (insert a s) = weight rank U a + worth rank U s :=
        Finset.sum_insert ha
      rw [hsum, Finset.card_insert_of_notMem ha, pow_succ]
      omega

/-- An element counts for more than all elements of lower rank. -/
theorem worth_below_lt (x : α) : worth rank U (below rank U x) < weight rank U x := by
  refine worth_lt_of_closed ?_
  intro y hy z hz
  exact mem_below.mpr ⟨(mem_below.mp hz).1, (mem_below.mp hz).2.trans (mem_below.mp hy).2⟩

/-- No collection is worth more than this. -/
theorem worth_lt {s : Finset α} (h : s ⊆ U) : worth rank U s < 2 ^ U.card :=
  (worth_mono h).trans_lt (worth_lt_of_closed fun _ _ ↦ Finset.filter_subset _ _)

/-- **Trading up** makes a collection worth more. -/
theorem worth_lt_worth {s t : Finset α} {x : α} (hs : s ⊆ U) (hxs : x ∉ s) (hxt : x ∈ t)
    (hlower : ∀ y ∈ s, y ∉ t → rank y < rank x) : worth rank U s < worth rank U t := by
  have hgiven : worth rank U (s \ t) < weight rank U x := by
    refine (worth_mono ?_).trans_lt (worth_below_lt x)
    intro y hy
    obtain ⟨hys, hyt⟩ := Finset.mem_sdiff.mp hy
    exact mem_below.mpr ⟨hs hys, hlower y hys hyt⟩
  have hsplit : worth rank U (s ∩ t) + worth rank U (s \ t) = worth rank U s :=
    Finset.sum_inter_add_sum_sdiff s t _
  have hkept : weight rank U x + worth rank U (s ∩ t) ≤ worth rank U t := by
    have hx : x ∉ s ∩ t := fun h ↦ hxs (Finset.mem_inter.mp h).1
    have hinsert : worth rank U (insert x (s ∩ t)) = weight rank U x + worth rank U (s ∩ t) :=
      Finset.sum_insert hx
    rw [← hinsert]
    exact worth_mono (Finset.insert_subset hxt Finset.inter_subset_right)
  omega

end GpuScheduler.Lib
