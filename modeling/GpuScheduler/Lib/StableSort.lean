import Mathlib.Data.List.Sort
import Mathlib.Data.Prod.Lex

/-!
# Stable sorting

`sliceStable less` sorts a list by the strict comparison `less` and keeps the input order of
elements that `less` does not separate.  It is insertion sort along the relation "is not preceded
by", which is structurally recursive and can be evaluated.

A comparison deserves the name when it ranks the elements, that is, when it compares a key of theirs
in some linear order (`RankedBy`); a comparison by several keys in turn is ranked by the
lexicographic product of the keys (`RankedBy.lex`).  Then the sorted list is ascending in rank
(`pairwise_sliceStable`, `comesBefore_sliceStable`), elements of equal rank keep their order
(`filter_sliceStable`), and a list without ties is sorted in one way only
(`sliceStable_eq_of_perm`).
-/

namespace GpuScheduler.Lib

variable {α : Type*}

/-- Stable sort by a strict comparison. -/
def sliceStable (less : α → α → Bool) (l : List α) : List α :=
  l.insertionSort fun a b ↦ less b a = false

theorem perm_sliceStable (less : α → α → Bool) (l : List α) : (sliceStable less l).Perm l :=
  List.perm_insertionSort _ l

@[simp] theorem mem_sliceStable {less : α → α → Bool} {l : List α} {a : α} :
    a ∈ sliceStable less l ↔ a ∈ l := (perm_sliceStable less l).mem_iff

/-! ## Comparisons that rank -/

variable {κ ι : Type*} [LinearOrder κ] [LinearOrder ι] {less : α → α → Bool} {rank : α → κ}

/-- The comparison holds between two elements when the first has the lower rank. -/
def RankedBy (less : α → α → Bool) (rank : α → κ) : Prop :=
  ∀ a b, less a b = true ↔ rank a < rank b

namespace RankedBy

theorem eq_false_iff (h : RankedBy less rank) {a b : α} : less b a = false ↔ rank a ≤ rank b := by
  rw [← not_lt, ← h b a, Bool.not_eq_true]

/-- Comparing one key, and another one only where the first does not decide. -/
theorem lex {less' : α → α → Bool} {key : α → ι} (h : RankedBy less' rank)
    (hless : ∀ a b, less a b = true ↔ key a < key b ∨ key a = key b ∧ less' a b = true) :
    RankedBy less fun a ↦ toLex (key a, rank a) := by
  intro a b
  rw [Prod.Lex.toLex_lt_toLex, hless, h a b]

end RankedBy

/-- The form in which such comparisons are written: `P` compares the first keys `x` and `y`, in
either direction. -/
theorem ite_ne_eq_true_iff {β : Type*} {x y : β} [Decidable (x ≠ y)] {P : Prop} [Decidable P]
    {b : Bool} (hP : P → x ≠ y) :
    (if x ≠ y then decide P else b) = true ↔ P ∨ x = y ∧ b = true := by
  by_cases h : x = y
  · have hnot : ¬ P := fun hp ↦ hP hp h
    simp [h, hnot]
  · simp [h]

/-! ## What the sort guarantees -/

/-- **Sorted**: the ranks ascend. -/
theorem pairwise_sliceStable (h : RankedBy less rank) (l : List α) :
    (sliceStable less l).Pairwise fun a b ↦ rank a ≤ rank b := by
  have htotal : Std.Total fun a b ↦ less b a = false := by
    constructor
    intro a b
    rw [h.eq_false_iff, h.eq_false_iff]
    exact le_total _ _
  have htrans : IsTrans α fun a b ↦ less b a = false := by
    constructor
    intro a b c hab hbc
    rw [h.eq_false_iff] at hab hbc ⊢
    exact hab.trans hbc
  refine (List.pairwise_insertionSort (fun a b ↦ less b a = false) l).imp ?_
  intro a b hab
  exact h.eq_false_iff.mp hab

/-- In the list, `a` stands in front of `b`, and nowhere behind it. -/
def ComesBefore (l : List α) (a b : α) : Prop := [a, b].Sublist l ∧ ¬ [b, a].Sublist l

/-- An element of lower rank comes before one of higher rank. -/
theorem comesBefore_sliceStable (h : RankedBy less rank) {l : List α} {a b : α} (ha : a ∈ l)
    (hb : b ∈ l) (hab : rank a < rank b) : ComesBefore (sliceStable less l) a b := by
  have hnot : ¬ [b, a].Sublist (sliceStable less l) := by
    intro hba
    have hpair := (pairwise_sliceStable h l).sublist hba
    rw [List.pairwise_pair] at hpair
    exact hab.not_ge hpair
  refine ⟨?_, hnot⟩
  have ha' : a ∈ sliceStable less l := mem_sliceStable.mpr ha
  have hb' : b ∈ sliceStable less l := mem_sliceStable.mpr hb
  obtain ⟨front, back, heq⟩ := List.append_of_mem ha'
  rw [heq] at hnot hb' ⊢
  rcases List.mem_append.mp hb' with hb' | hb'
  · refine absurd ?_ hnot
    exact (List.singleton_sublist.mpr hb').append (List.singleton_sublist.mpr List.mem_cons_self)
  · rcases List.mem_cons.mp hb' with rfl | hb'
    · exact absurd hab (lt_irrefl _)
    · apply List.Sublist.trans _ (List.sublist_append_right front (a :: back))
      exact (List.singleton_sublist.mpr hb').cons_cons a

/-- An element goes in front of all that it ties with. -/
theorem filter_orderedInsert (h : RankedBy less rank) {p : α → Bool}
    (hp : ∀ a b, p a = true → p b = true → rank a = rank b) (a : α) (l : List α) :
    (l.orderedInsert (fun a b ↦ less b a = false) a).filter p = (a :: l).filter p := by
  induction l with
  | nil => rfl
  | cons b l ih =>
      rw [List.orderedInsert_cons]
      split
      · rfl
      · rename_i hba
        rw [List.filter_cons, ih]
        -- `a` moves behind `b`, which has a lower rank, so that they are not both kept
        rw [h.eq_false_iff, not_le] at hba
        cases hb : p b with
        | false => simp [List.filter_cons, hb]
        | true =>
            cases ha : p a with
            | false => simp [hb, ha]
            | true => exact absurd (hp b a hb ha) hba.ne

/-- **Stable**: elements that tie keep their order. -/
theorem filter_sliceStable (h : RankedBy less rank) {p : α → Bool}
    (hp : ∀ a b, p a = true → p b = true → rank a = rank b) (l : List α) :
    (sliceStable less l).filter p = l.filter p := by
  induction l with
  | nil => rfl
  | cons a l ih =>
      have hins := filter_orderedInsert h hp a (sliceStable less l)
      rw [List.filter_cons, ih, ← List.filter_cons] at hins
      exact hins

/-- **Canonical**: when the ranks separate the elements, the order of the input does not matter. -/
theorem sliceStable_eq_of_perm (h : RankedBy less rank) {l l' : List α} (hl : l'.Perm l)
    (hinj : ∀ a ∈ l, ∀ b ∈ l, rank a = rank b → a = b) :
    sliceStable less l' = sliceStable less l := by
  have hperm : (sliceStable less l').Perm (sliceStable less l) :=
    (perm_sliceStable less l').trans (hl.trans (perm_sliceStable less l).symm)
  refine hperm.eq_of_pairwise ?_ (pairwise_sliceStable h l') (pairwise_sliceStable h l)
  intro a b ha hb hab hba
  have ha' : a ∈ l := hl.mem_iff.mp (mem_sliceStable.mp ha)
  exact hinj a ha' b (mem_sliceStable.mp hb) (le_antisymm hab hba)

end GpuScheduler.Lib
