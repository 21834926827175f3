import GpuScheduler.Lib.StableSort
import Mathlib.Data.List.Induction

/-!
# Two searches through a list

`ShortestPrefix P l vs` says that `vs` is the shortest initial part of `l` with the property `P`;
it is what a loop finds that takes elements one at a time until `P` holds.

`FirstBest f rank l b` says that `b` is, among the candidates that `f` finds for the elements of
`l`, the first of those with the least rank; it is what a loop finds that keeps a candidate until
it meets a better one (`keepBest`).
-/

namespace GpuScheduler.Lib

variable {α β κ : Type*}

/-! ## The shortest sufficient prefix -/

/-- The shortest initial part of `l` for which `P` holds. -/
structure ShortestPrefix (P : List α → Prop) (l vs : List α) : Prop where
  isPrefix : vs <+: l
  holds : P vs
  shortest : ∀ ws, ws <+: l → P ws → vs.length ≤ ws.length

namespace ShortestPrefix

variable {P : List α → Prop} {l vs ws : List α} {a : α}

theorem nil (h : P []) : ShortestPrefix P l [] := ⟨List.nil_prefix, h, fun _ _ _ ↦ Nat.zero_le _⟩

/-- The first element is taken when nothing taken is not enough. -/
theorem cons (hnil : ¬ P []) (h : ShortestPrefix (fun ws ↦ P (a :: ws)) l vs) :
    ShortestPrefix P (a :: l) (a :: vs) where
  isPrefix := (List.prefix_cons_inj a).mpr h.isPrefix
  holds := h.holds
  shortest ws hws hP := by
    rcases List.prefix_cons_iff.mp hws with rfl | ⟨ws', rfl, hws'⟩
    · exact absurd hP hnil
    · exact Nat.succ_le_succ (h.shortest ws' hws' hP)

/-- There is at most one. -/
theorem unique (h : ShortestPrefix P l vs) (h' : ShortestPrefix P l ws) : vs = ws := by
  have hlen : vs.length = ws.length :=
    le_antisymm (h.shortest ws h'.isPrefix h'.holds) (h'.shortest vs h.isPrefix h.holds)
  exact (List.prefix_of_prefix_length_le h.isPrefix h'.isPrefix hlen.le).eq_of_length hlen

/-- There is one as soon as some initial part will do. -/
theorem exists_of_holds (hws : ws <+: l) (hP : P ws) : ∃ vs, ShortestPrefix P l vs := by
  induction l generalizing P ws with
  | nil =>
      rw [List.prefix_nil.mp hws] at hP
      exact ⟨[], .nil hP⟩
  | cons a l ih =>
      by_cases hnil : P []
      · exact ⟨[], .nil hnil⟩
      · rcases List.prefix_cons_iff.mp hws with rfl | ⟨ws', rfl, hws'⟩
        · exact absurd hP hnil
        · obtain ⟨vs, hvs⟩ := ih (P := fun ws ↦ P (a :: ws)) hws' hP
          exact ⟨a :: vs, .cons hnil hvs⟩

end ShortestPrefix

/-! ## The first best candidate -/

/-- One turn of the search: the best candidate so far is replaced by a better one. -/
def keepBest (f : α → Option β) (less : β → β → Bool) (best : Option β) (x : α) : Option β :=
  match f x with
  | none => best
  | some c => match best with
    | none => some c
    | some b => if less c b then some c else best

variable [LinearOrder κ] {f : α → Option β} {less : β → β → Bool} {rank : β → κ}

/-- The first of the best candidates for the elements of `l`: it beats the candidates of all
elements in front of its own, and no candidate of an element behind beats it. -/
def FirstBest (f : α → Option β) (rank : β → κ) (l : List α) (b : β) : Prop :=
  ∃ before x behind, l = before ++ x :: behind ∧ f x = some b ∧
    (∀ y ∈ before, ∀ c, f y = some c → rank b < rank c) ∧
    ∀ y ∈ behind, ∀ c, f y = some c → rank b ≤ rank c

namespace FirstBest

variable {l : List α} {x : α} {b c : β}

/-- No candidate is better. -/
theorem le (h : FirstBest f rank l b) (hx : x ∈ l) (hc : f x = some c) : rank b ≤ rank c := by
  obtain ⟨before, y, behind, rfl, hb, hbefore, hbehind⟩ := h
  rcases List.mem_append.mp hx with hx | hx
  · exact (hbefore x hx c hc).le
  · rcases List.mem_cons.mp hx with rfl | hx
    · rw [hb] at hc
      cases hc
      exact le_rfl
    · exact hbehind x hx c hc

/-- A candidate that is not better, or none, at the end of the list. -/
theorem append_singleton (h : FirstBest f rank l b) (hx : ∀ c, f x = some c → rank b ≤ rank c) :
    FirstBest f rank (l ++ [x]) b := by
  obtain ⟨before, y, behind, rfl, hb, hbefore, hbehind⟩ := h
  refine ⟨before, y, behind ++ [x], by simp, hb, hbefore, ?_⟩
  intro z hz c hc
  rcases List.mem_append.mp hz with hz | hz
  · exact hbehind z hz c hc
  · cases List.mem_singleton.mp hz
    exact hx c hc

theorem exists_mem (h : FirstBest f rank l b) : ∃ x ∈ l, f x = some b := by
  obtain ⟨before, x, behind, rfl, hb, -, -⟩ := h
  exact ⟨x, by simp, hb⟩

/-- Without ties the order of the list does not matter. -/
theorem eq_of_perm {l' : List α} (h : FirstBest f rank l b) (h' : FirstBest f rank l' c)
    (hperm : l'.Perm l) (hties : ∀ x ∈ l, ∀ y ∈ l, ∀ d e, f x = some d → f y = some e →
      rank d = rank e → d = e) : b = c := by
  obtain ⟨x, hx, hb⟩ := h.exists_mem
  obtain ⟨y, hy, hc⟩ := h'.exists_mem
  have hy' : y ∈ l := hperm.mem_iff.mp hy
  apply hties x hx y hy' b c hb hc
  exact le_antisymm (h.le hy' hc) (h'.le (hperm.mem_iff.mpr hx) hb)

end FirstBest

/-- The search finds nothing when there is nothing to be found. -/
theorem foldl_keepBest_eq_none {l : List α} :
    l.foldl (keepBest f less) none = none ↔ ∀ x ∈ l, f x = none := by
  induction l using List.reverseRecOn with
  | nil => simp
  | append_singleton l x ih =>
      rw [List.foldl_append, List.foldl_cons, List.foldl_nil, List.forall_mem_append,
        List.forall_mem_singleton, ← ih, keepBest]
      cases f x with
      | none => simp
      | some c =>
          cases l.foldl (keepBest f less) none with
          | none => simp
          | some b => simp only [reduceCtorEq, and_false, iff_false]; split <;> simp

/-- **The search finds the first best candidate.** -/
theorem FirstBest.of_foldl (h : RankedBy less rank) {l : List α} {b : β}
    (hb : l.foldl (keepBest f less) none = some b) : FirstBest f rank l b := by
  induction l using List.reverseRecOn generalizing b with
  | nil => cases hb
  | append_singleton l x ih =>
      rw [List.foldl_append, List.foldl_cons, List.foldl_nil, keepBest] at hb
      -- a candidate that takes over beats all in front of it
      have hnew : f x = some b → (∀ y ∈ l, ∀ c, f y = some c → rank b < rank c) →
          FirstBest f rank (l ++ [x]) b := fun hx hbefore ↦
        ⟨l, x, [], rfl, hx, hbefore, fun _ hy ↦ absurd hy List.not_mem_nil⟩
      cases hx : f x with
      | none =>
          rw [hx] at hb
          exact (ih hb).append_singleton fun c hc ↦ by simp [hx] at hc
      | some c =>
          cases hbest : l.foldl (keepBest f less) none with
          | none =>
              simp only [hx, hbest, Option.some.injEq] at hb
              subst hb
              refine hnew hx fun y hy d hd ↦ ?_
              rw [foldl_keepBest_eq_none.mp hbest y hy] at hd
              cases hd
          | some b₀ =>
              simp only [hx, hbest] at hb
              split at hb
              · rename_i hless
                cases hb
                exact hnew hx fun y hy d hd ↦ ((h b b₀).mp hless).trans_le ((ih hbest).le hy hd)
              · rename_i hless
                cases hb
                refine (ih hbest).append_singleton fun d hd ↦ ?_
                cases hx.symm.trans hd
                exact h.eq_false_iff.mp (Bool.eq_false_iff.mpr hless)

end GpuScheduler.Lib
